import Mathlib.Tactic.Common
import PropSurface.Proofs.Element.Parts
import PropSurface.Proofs.Tree.Occurrence

/-!
# Where elements come from

Identifiers, types, their members and heritage are left by nodes of many rules, several at a time.
An element of any other kind is a keyword that the role of a node brings along, or else the only
element that one node is lowered to, and then the role and the rule of that node allow its kind.

**Definitions.**
* `Kind.isCommon`, `Role.kinds`, `Role.keywords`: which elements a node in a role can add.
* `Plan.Makes`: a plan that adds no others.
* `ReadIn`: the nodes that are read while a node is lowered, with their roles.
* `Lowering.Becomes`: the node of a source that an element comes from.
* `Silent`: a forest without an element that only exports have; `Exportless`: a concrete tree
  without an export statement.

**Results.**
* `Lowering.makes_plan`: the elements that one node adds.
* `Lowering.exists_origin`, `Lowering.exists_becomes`: elements come from nodes.
* `Lowering.silent_lower`: what holds no export statement leaves no element of an export.
-/

namespace PropSurface

open PropSurface.Tree

/-- Whether nodes of several rules leave elements of a kind. -/
def Kind.isCommon : Kind → Bool
  | .heritageClause => true
  | .heritageTarget => true
  | .typeReference => true
  | .typeLiteral => true
  | .intersectionType => true
  | .propertySignature => true
  | .methodSignature => true
  | .identifier => true
  | .stringLiteral => true
  | .unknown => true
  | _ => false

/-- The other kinds of elements that a statement becomes. -/
def Rule.kinds : Rule → List Kind
  | .importStatement => [.importDeclaration]
  | .exportStatement => [.exportAssignment, .exportDeclaration]
  | .classLike => [.classDeclaration]
  | .interfaceDeclaration => [.interfaceDeclaration]
  | .typeAliasDeclaration => [.typeAliasDeclaration]
  | _ => []

/-- The other kinds of elements that a node in a role becomes. -/
def Role.kinds (role : Role) (rule : Rule) : List Kind :=
  match role with
  | .plain _ => rule.kinds
  | .member => rule.kinds
  | .importClause => [.importClause]
  | .namedImports => [.namedImports]
  | .exportClause => [.namedExports]
  | .importSpecifier => [.importSpecifier]
  | .exportSpecifier => [.exportSpecifier]
  | _ => []

/-- The keywords that a role brings along. -/
def Role.keywords : Role → List Element
  | .plain keywords => keywords
  | _ => []

/-- The elements of a forest that are not common come from the parts or are keywords. -/
def Accounted (parts : List Part) (keywords : List Element) (ts : List Lowered) : Prop :=
  ∀ x, Within x ts → x.label.kind.isCommon = false →
    (∃ part ∈ parts, Within x part.2) ∨ x.label ∈ keywords

/-- The elements that a plan adds and that are not common are keywords, or else the only element
that is built. -/
def Plan.Makes (p : Plan) (kinds : List Kind) (keywords : List Element) : Prop :=
  ∀ parts x, Within x (p.build parts) → x.label.kind.isCommon = false →
    (∃ part ∈ parts, Within x part.2) ∨ x.label ∈ keywords ∨
      (p.build parts = [x] ∧ x.label.kind ∈ kinds)

namespace Lowering

section Pieces

variable {parts : List Part} {keywords : List Element}

@[simp] theorem accounted_nil : Accounted parts keywords [] :=
  fun x hx => absurd hx (not_within_nil x)

@[simp] theorem accounted_append {ts us : List Lowered} :
    Accounted parts keywords (ts ++ us) ↔
      Accounted parts keywords ts ∧ Accounted parts keywords us := by
  simp only [Accounted, within_append, or_imp, forall_and]

theorem accounted_flatMap {α : Type} {xs : List α} {f : α → List Lowered}
    (h : ∀ x ∈ xs, Accounted parts keywords (f x)) :
    Accounted parts keywords (xs.flatMap f) := by
  intro x hx
  obtain ⟨y, hy, hx⟩ := within_flatMap.mp hx
  exact h y hy x hx

/-- A common element needs no account of its own, only what is below it. -/
theorem accounted_cons {e : Element} {below ts : List Lowered} (he : e.kind.isCommon = true)
    (hbelow : Accounted parts keywords below) (hts : Accounted parts keywords ts) :
    Accounted parts keywords (.node e below :: ts) := by
  intro x hx hkind
  rcases within_cons.mp hx with rfl | hx | hx
  · exact Bool.noConfusion (he.symm.trans hkind)
  · exact hbelow x hx hkind
  · exact hts x hx hkind

theorem accounted_identifier (source : String) (t : Token) :
    Accounted parts keywords [identifier source t] :=
  accounted_cons rfl accounted_nil accounted_nil

theorem accounted_stringLiteral (source : String) (t : Token) :
    Accounted parts keywords [stringLiteral source t] :=
  accounted_cons rfl accounted_nil accounted_nil

theorem accounted_identifiers (source : String) (t : Option Token) :
    Accounted parts keywords (t.map (identifier source)).toList := by
  cases t with
  | none => exact accounted_nil
  | some t => exact accounted_identifier source t

/-- The keywords account for the elements made of them. -/
theorem accounted_keywords : Accounted parts keywords (keywords.map leaf) := by
  intro x hx _
  obtain ⟨u, hu, hx⟩ := hx
  obtain ⟨e, he, rfl⟩ := List.mem_map.mp hu
  rcases occurs_iff.mp hx with rfl | hx
  · exact .inr he
  · exact absurd hx (not_within_nil x)

/-- The elements of a part come from that part. -/
theorem accounted_part {part : Part} (h : part ∈ parts) : Accounted parts keywords part.2 :=
  fun _ hx _ => .inl ⟨part, h, hx⟩

theorem accounted_meaningful : Accounted parts keywords (meaningful parts) :=
  accounted_flatMap fun _ hpart => accounted_part (List.mem_filter.mp hpart).1

/-- The first part with a property accounts for its elements; if there is none, nothing is left. -/
theorem accounted_find (p : Part → Bool) :
    Accounted parts keywords (((parts.find? p).map (·.2)).getD []) := by
  cases hfind : parts.find? p with
  | none => exact accounted_nil
  | some part => exact accounted_part (List.mem_of_find?_eq_some hfind)

/-- What is paired comes from the parts: the arguments in front are some of them, and the targets
hold no others. -/
theorem accounted_pairTargets (ps : List Part) (h : ∀ part ∈ ps, part ∈ parts) :
    (∀ part ∈ (pairTargets ps).1, part ∈ parts) ∧
      Accounted parts keywords (pairTargets ps).2 := by
  induction ps with
  | nil => exact ⟨fun _ h => absurd h List.not_mem_nil, accounted_nil⟩
  | cons part ps ih =>
      obtain ⟨harguments, htargets⟩ := ih fun p hp => h p (List.mem_cons_of_mem _ hp)
      have hpart := h part List.mem_cons_self
      by_cases hrule : part.1.rule = .typeArguments
      · rw [pairTargets_cons_of_arguments hrule]
        refine ⟨fun p hp => ?_, htargets⟩
        rcases List.mem_cons.mp hp with rfl | hp
        · exact hpart
        · exact harguments p hp
      · rw [pairTargets_cons_of_expression hrule]
        refine ⟨fun _ h => absurd h List.not_mem_nil, accounted_cons rfl ?_ htargets⟩
        exact accounted_append.mpr ⟨accounted_part hpart,
          accounted_flatMap fun p hp => accounted_part (harguments p hp)⟩

theorem accounted_extendsTargets : Accounted parts keywords (extendsTargets parts) := by
  have hparts : ∀ part ∈ parts.filter (·.1.isMeaningful), part ∈ parts :=
    fun _ hpart => (List.mem_filter.mp hpart).1
  obtain ⟨harguments, htargets⟩ := accounted_pairTargets _ hparts
  refine accounted_append.mpr ⟨?_, htargets⟩
  rw [List.map_eq_flatMap]
  exact accounted_flatMap fun part hpart =>
    accounted_cons rfl (accounted_part (harguments part hpart)) accounted_nil

end Pieces

section Plans

variable {kinds : List Kind} {keywords : List Element} {roleOf : Token → Role}

/-- A plan that adds keywords at most. -/
theorem makes_of_accounted {p : Plan} (h : ∀ parts, Accounted parts keywords (p.build parts)) :
    p.Makes kinds keywords := fun parts x hx hkind => (h parts x hx hkind).imp_right .inl

/-- A plan that builds one element of a common or an allowed kind. -/
theorem makes_node {e : Element} {below : List Part → List Lowered}
    (he : e.kind.isCommon = true ∨ e.kind ∈ kinds)
    (h : ∀ parts, Accounted parts keywords (below parts)) :
    Plan.Makes ⟨roleOf, fun parts => [.node e (below parts)]⟩ kinds keywords := by
  intro parts x hx hkind
  rcases within_cons.mp hx with rfl | hx | hx
  · refine .inr (.inr ⟨rfl, he.resolve_left fun hcommon => ?_⟩)
    exact Bool.noConfusion (hcommon.symm.trans hkind)
  · exact (h parts x hx hkind).imp_right .inl
  · exact absurd hx (not_within_nil x)

theorem makes_wrap {payload : Payload} {t : Token} {first : List Lowered}
    (he : payload.kind.isCommon = true ∨ payload.kind ∈ kinds)
    (hfirst : ∀ parts, Accounted parts keywords first) :
    Plan.Makes ⟨roleOf, wrap payload t first⟩ kinds keywords :=
  makes_node he fun parts => accounted_append.mpr ⟨hfirst parts, accounted_meaningful⟩

theorem makes_meaningful : Plan.Makes ⟨roleOf, meaningful⟩ kinds keywords :=
  makes_of_accounted fun _ => accounted_meaningful

theorem makes_planUnknown (t : Token) (role : Role) :
    (planUnknown t keywords role).Makes kinds keywords :=
  makes_wrap (.inl rfl) fun _ => accounted_keywords

variable (source : String) (t : Token) (kids : List Token)

/-- A specifier becomes one element of its kind, or stays unknown. -/
theorem makes_planSpecifier {make : String → Option String → Payload} {kind : Kind}
    (hmake : ∀ name rename, (make name rename).kind = kind) :
    (planSpecifier source make t kids).Makes [kind] [] := by
  unfold planSpecifier
  split
  · exact makes_planUnknown t _
  · exact makes_node (.inr (List.mem_singleton.mpr (hmake _ _))) fun parts =>
      accounted_append.mpr ⟨accounted_identifier source _, accounted_identifiers source _⟩

/-- An export statement becomes one element of an export, or leaves the place to its declaration. -/
theorem makes_planExport :
    (planExport source t kids).Makes [.exportAssignment, .exportDeclaration] keywords := by
  unfold planExport
  split
  · exact makes_of_accounted fun _ => accounted_find _
  · exact makes_node (.inr List.mem_cons_self) fun _ => accounted_find _
  · exact makes_wrap (.inr List.mem_cons_self) fun _ => accounted_nil
  · refine makes_node (.inr (List.mem_cons_of_mem _ List.mem_cons_self)) fun _ =>
      accounted_append.mpr ⟨accounted_find _, ?_⟩
    cases Token.filling? "source" kids with
    | none => exact accounted_nil
    | some literal => exact accounted_stringLiteral source literal
  · exact makes_wrap (.inl rfl) fun _ => accounted_nil

/-- A statement becomes one element of the kind of its rule, below which its keywords stand. -/
theorem makes_planPlain : (planPlain source keywords t kids).Makes t.rule.kinds keywords := by
  have hidentifier : ∀ kinds, (Plan.constant [identifier source t]).Makes kinds keywords :=
    fun _ => makes_of_accounted fun _ => accounted_identifier source t
  cases hrule : t.rule <;> simp only [planPlain, hrule]
  case importStatement => exact makes_wrap (.inr List.mem_cons_self) fun _ => accounted_nil
  case exportStatement => exact makes_planExport source t kids
  case classLike => exact makes_wrap (.inr List.mem_cons_self) fun _ => accounted_keywords
  case interfaceDeclaration =>
    exact makes_wrap (.inr List.mem_cons_self) fun _ => accounted_keywords
  case typeAliasDeclaration =>
    exact makes_wrap (.inr List.mem_cons_self) fun _ => accounted_keywords
  case string => exact makes_of_accounted fun _ => accounted_stringLiteral source t
  case identifier => exact hidentifier _
  case propertyIdentifier => exact hidentifier _
  case typeIdentifier => exact hidentifier _
  case otherIdentifier => exact hidentifier _
  all_goals exact makes_planUnknown t _

theorem makes_planExtends : (planExtends t).Makes kinds keywords :=
  makes_node (.inl rfl) fun _ => accounted_extendsTargets

theorem makes_planType : (planType source t kids).Makes kinds [] := by
  have hreference : ∀ name, (Plan.constant
      [.node ⟨.typeReference name, t.span⟩ [identifier source t]]).Makes kinds [] :=
    fun _ => makes_node (.inl rfl) fun _ => accounted_identifier source t
  cases hrule : t.rule <;> simp only [planType, hrule]
  case typeIdentifier => exact hreference _
  case nestedTypeIdentifier => exact hreference _
  case genericType =>
    exact makes_node (.inl rfl) fun _ =>
      accounted_append.mpr ⟨accounted_identifiers source _, accounted_find _⟩
  case objectType => exact makes_wrap (.inl rfl) fun _ => accounted_nil
  case intersectionType => exact makes_wrap (.inl rfl) fun _ => accounted_nil
  case annotatedType => exact makes_meaningful
  case parenthesizedType => exact makes_meaningful
  case identifier => exact makes_of_accounted fun _ => accounted_identifier source t
  case propertyIdentifier => exact makes_of_accounted fun _ => accounted_identifier source t
  case string => exact makes_of_accounted fun _ => accounted_stringLiteral source t
  all_goals exact makes_planUnknown t _

theorem makes_planMember : (planMember source t kids).Makes t.rule.kinds [] := by
  unfold planMember
  split
  · exact makes_node (.inl rfl) fun _ =>
      accounted_append.mpr ⟨accounted_identifier source _, accounted_find _⟩
  · exact makes_node (.inl rfl) fun _ => accounted_identifier source _
  · exact makes_planPlain source t kids

/-- The elements that one node adds are common, keywords of its role, or the only element that
the node becomes. -/
theorem makes_plan (role : Role) :
    (plan source role t kids).Makes (role.kinds t.rule) role.keywords := by
  cases role <;> simp only [plan]
  case plain keywords => exact makes_planPlain source t kids
  case importClause => exact makes_wrap (.inr List.mem_cons_self) fun _ => accounted_nil
  case namedImports => exact makes_wrap (.inr List.mem_cons_self) fun _ => accounted_nil
  case exportClause => exact makes_wrap (.inr List.mem_cons_self) fun _ => accounted_nil
  case importSpecifier => exact makes_planSpecifier source t kids fun _ _ => rfl
  case exportSpecifier => exact makes_planSpecifier source t kids fun _ _ => rfl
  case classHeritage =>
    unfold planHeritage
    split
    · exact makes_meaningful
    · exact makes_planExtends t
  case extendsClause => exact makes_planExtends t
  case typeClause heritage => exact makes_wrap (.inl rfl) fun _ => accounted_nil
  case heritageType =>
    unfold planHeritageType
    split
    · exact makes_node (.inl rfl) fun _ =>
        accounted_append.mpr ⟨accounted_identifiers source _, accounted_find _⟩
    · exact makes_node (.inl rfl) fun _ => accounted_identifier source t
  case instantiation => exact makes_meaningful
  case interfaceBody => exact makes_meaningful
  case member => exact makes_planMember source t kids
  case typeArguments => exact makes_meaningful
  case type => exact makes_planType source t kids
  case operand =>
    split
    · exact makes_meaningful
    · exact makes_planType source t kids
  case name => exact makes_of_accounted fun _ => accounted_identifier source t
  case ignored => exact makes_of_accounted fun _ => accounted_nil

end Plans

end Lowering

/-! ### Roles -/

/-- Roles that bring no element of an export along. -/
def Role.Quiet : Role → Prop
  | .plain keywords => keywords = []
  | .exportClause => False
  | .exportSpecifier => False
  | _ => True

/-- Roles whose keywords, if any, are those of an export statement. -/
def Role.Exporting : Role → Prop
  | .plain keywords => ∃ kids, keywords = Lowering.exportKeywords kids
  | _ => True

theorem Role.Quiet.exporting {role : Role} (h : role.Quiet) : role.Exporting := by
  cases role
  case plain keywords =>
    obtain rfl : keywords = [] := h
    exact ⟨[], rfl⟩
  all_goals exact trivial

theorem Role.Exporting.isExport_of_mem_keywords {role : Role} (h : role.Exporting) {e : Element}
    (he : e ∈ role.keywords) : e.kind.isExport = true := by
  cases role
  case plain keywords =>
    obtain ⟨kids, rfl⟩ := h
    exact exportKeywords_isExport he
  all_goals cases he

namespace Lowering

section Roles

variable (source : String) (t : Token) (kids : List Token) (k : Token)

theorem quiet_argumentsOnly : (argumentsOnly k).Quiet := by
  unfold argumentsOnly
  split <;> exact trivial

/-- Statements other than exports read their children without keywords. -/
theorem quiet_planPlain (keywords : List Element) (ht : t.rule ≠ .exportStatement) :
    ((planPlain source keywords t kids).roleOf k).Quiet := by
  cases hrule : t.rule <;> simp only [planPlain, hrule]
  case exportStatement => exact absurd hrule ht
  case importStatement => split <;> first | exact trivial | exact rfl
  case classLike =>
    simp only [planClass]
    split_ifs <;> first | exact trivial | exact rfl
  case interfaceDeclaration =>
    simp only [planInterface]
    split_ifs
    · exact trivial
    · split <;> first | exact trivial | exact rfl
  case typeAliasDeclaration =>
    simp only [planAlias]
    split_ifs <;> first | exact trivial | exact rfl
  all_goals first | exact trivial | exact rfl

/-- The keywords that an export statement hands on are its own. -/
theorem exporting_planExport : ((planExport source t kids).roleOf k).Exporting := by
  unfold planExport
  split
  · exact ⟨kids, rfl⟩
  · exact ⟨[], rfl⟩
  · exact ⟨[], rfl⟩
  · exact trivial
  · exact ⟨[], rfl⟩

theorem quiet_planType : ((planType source t kids).roleOf k).Quiet := by
  cases hrule : t.rule <;> simp only [planType, hrule]
  case genericType => exact quiet_argumentsOnly k
  all_goals exact trivial

theorem quiet_planExtends : ((planExtends t).roleOf k).Quiet := by
  simp only [planExtends]
  split <;> first | exact trivial | exact rfl

theorem quiet_planSpecifier (make : String → Option String → Payload) :
    ((planSpecifier source make t kids).roleOf k).Quiet := by
  unfold planSpecifier
  split <;> first | exact trivial | exact rfl

theorem roleOf_planPlain (keywords : List Element) :
    ((planPlain source keywords t kids).roleOf k).Quiet ∨
      t.rule = .exportStatement ∧ ((planPlain source keywords t kids).roleOf k).Exporting := by
  by_cases ht : t.rule = .exportStatement
  · have hplan : planPlain source keywords t kids = planExport source t kids := by
      simp only [planPlain, ht]
    rw [hplan]
    exact .inr ⟨ht, exporting_planExport source t kids k⟩
  · exact .inl (quiet_planPlain source t kids k keywords ht)

/-- Only export statements and their clauses give roles that bring elements of an export along. -/
theorem roleOf_plan (role : Role) :
    ((plan source role t kids).roleOf k).Quiet ∨
      (t.rule = .exportStatement ∨ role = .exportClause) ∧
        ((plan source role t kids).roleOf k).Exporting := by
  cases role <;> simp only [plan]
  case plain keywords =>
    exact (roleOf_planPlain source t kids k keywords).imp_right (.imp_left .inl)
  case exportClause =>
    refine .inr ⟨.inr trivial, ?_⟩
    split <;> exact trivial
  case member =>
    unfold planMember
    split
    · refine .inl ?_
      simp only
      split <;> exact trivial
    · exact .inl trivial
    · exact (roleOf_planPlain source t kids k []).imp_right (.imp_left .inl)
  -- No other role passes on anything of an export.
  all_goals refine .inl ?_
  case importClause => split <;> first | exact trivial | exact rfl
  case namedImports => split <;> exact trivial
  case importSpecifier => exact quiet_planSpecifier source t kids k _
  case exportSpecifier => exact quiet_planSpecifier source t kids k _
  case classHeritage =>
    unfold planHeritage
    split
    · simp only
      split <;> first | exact trivial | exact rfl
    · exact quiet_planExtends t k
  case extendsClause => exact quiet_planExtends t k
  case heritageType =>
    unfold planHeritageType
    split
    · exact quiet_argumentsOnly k
    · exact trivial
  case instantiation => split <;> first | exact trivial | exact rfl
  case type => exact quiet_planType source t kids k
  case operand =>
    split
    · exact trivial
    · exact quiet_planType source t kids k
  all_goals exact trivial

theorem exporting_plan (role : Role) : ((plan source role t kids).roleOf k).Exporting :=
  (roleOf_plan source t kids k role).elim Role.Quiet.exporting And.right

theorem quiet_plan {role : Role} (hrole : role.Quiet) (ht : t.rule ≠ .exportStatement) :
    ((plan source role t kids).roleOf k).Quiet := by
  refine (roleOf_plan source t kids k role).resolve_right fun h => ?_
  rcases h.1 with h | rfl
  · exact ht h
  · exact hrole

end Roles

end Lowering

/-! ### Origins -/

/-- `ReadIn source role c role' d`: the node `d` is read in `role'` when `c` is read in `role`. -/
inductive ReadIn (source : String) : Role → Concrete → Role → Concrete → Prop
  | here {role : Role} {c : Concrete} : ReadIn source role c role c
  | inside {role role' : Role} {c d e : Concrete} (hd : d ∈ c.children)
      (h : ReadIn source
        ((Lowering.plan source role c.label (c.children.map Tree.label)).roleOf d.label)
        d role' e) :
      ReadIn source role c role' e

namespace ReadIn

variable {source : String} {role role' : Role} {c d : Concrete}

/-- What is read stands in the tree. -/
theorem occurs (h : ReadIn source role c role' d) : Occurs d c := by
  induction h with
  | here => exact .here
  | inside hd _ ih => exact .inside hd ih

/-- If the keywords at the start are those of an export statement, so are all that a node is read
with. -/
theorem exporting (h : ReadIn source role c role' d) (hrole : role.Exporting) :
    role'.Exporting := by
  induction h with
  | here => exact hrole
  | inside hd _ ih => exact ih (Lowering.exporting_plan source _ _ _ _)

end ReadIn

namespace Lowering

mutual

/-- An element that is not common is a keyword that a node is read with, or else the only element
of a node whose role and rule allow its kind. -/
theorem exists_origin (source : String) {x : Lowered} (hkind : x.label.kind.isCommon = false) :
    ∀ (c : Concrete) (role : Role), Within x (lower source role c) →
      ∃ role' d, ReadIn source role c role' d ∧
        (x.label ∈ role'.keywords ∨
          lower source role' d = [x] ∧ x.label.kind ∈ role'.kinds d.label.rule)
  | .node t ts, role, hx => by
      rcases makes_plan source t (ts.map Tree.label) role _ x hx hkind with
        ⟨part, hpart, hx⟩ | horigin
      · obtain ⟨d, hd, role', e, hread, horigin⟩ := exists_origin_of_mem source hkind ts _ hpart hx
        exact ⟨role', e, .inside hd hread, horigin⟩
      · exact ⟨role, .node t ts, .here, horigin⟩

theorem exists_origin_of_mem (source : String) {x : Lowered}
    (hkind : x.label.kind.isCommon = false) :
    ∀ (cs : List Concrete) (roleOf : Token → Role) {part : Part},
      part ∈ lowerParts source roleOf cs → Within x part.2 →
        ∃ d ∈ cs, ∃ role' e, ReadIn source (roleOf d.label) d role' e ∧
          (x.label ∈ role'.keywords ∨
            lower source role' e = [x] ∧ x.label.kind ∈ role'.kinds e.label.rule)
  | [], _, _, hpart, _ => absurd hpart List.not_mem_nil
  | c :: cs, roleOf, part, hpart, hx => by
      rcases List.mem_cons.mp hpart with rfl | hpart
      · exact ⟨c, List.mem_cons_self, exists_origin source hkind c _ hx⟩
      · obtain ⟨d, hd, horigin⟩ := exists_origin_of_mem source hkind cs roleOf hpart hx
        exact ⟨d, List.mem_cons_of_mem _ hd, horigin⟩

end

/-- `Becomes source root c t`: when `root` is lowered, its node `c` becomes the element `t` of a
kind that only nodes of its rule and role become. -/
def Becomes (source : String) (root c : Concrete) (t : Lowered) : Prop :=
  ∃ d ∈ root.parts, ∃ role, ReadIn source (.plain []) d role c ∧
    lower source role c = [t] ∧ t.label.kind ∈ role.kinds c.label.rule

theorem Becomes.occurs {source : String} {root c : Concrete} {t : Lowered}
    (h : Becomes source root c t) : Occurs c root := by
  obtain ⟨d, hd, role, hread, -⟩ := h
  exact .inside (List.mem_filter.mp hd).1 hread.occurs

/-- Every element that is neither common nor of an export is what a node of the source becomes. -/
theorem exists_becomes {source : String} {root : Concrete} {x : Lowered}
    (hx : Occurs x (lowerRoot source root)) (hcommon : x.label.kind.isCommon = false)
    (hexport : x.label.kind.isExport = false) (hroot : x.label.kind ≠ .sourceFile) :
    ∃ c, Becomes source root c x := by
  rw [lowerRoot_eq] at hx
  rcases occurs_iff.mp hx with rfl | hx
  · exact absurd rfl hroot
  · obtain ⟨d, hd, hx⟩ := within_flatMap.mp hx
    obtain ⟨role, c, hread, hkeyword | ⟨hlower, hkind⟩⟩ := exists_origin source hcommon d _ hx
    · have hexporting : role.Exporting := hread.exporting ⟨[], rfl⟩
      exact absurd (hexporting.isExport_of_mem_keywords hkeyword) (by simp [hexport])
    · exact ⟨c, d, hd, role, hread, hlower, hkind⟩

end Lowering

/-! ### Elements of exports -/

/-- A forest without an element that only exports have. -/
def Silent (ts : List Lowered) : Prop := ∀ e ∈ Tree.forestPreorder ts, e.kind.isExport = false

@[simp] theorem silent_nil : Silent [] := fun _ h => absurd h List.not_mem_nil

@[simp] theorem silent_append {ts us : List Lowered} :
    Silent (ts ++ us) ↔ Silent ts ∧ Silent us := by
  simp only [Silent, Tree.forestPreorder_append, List.mem_append, or_imp, forall_and]

@[simp] theorem silent_cons {e : Element} {below ts : List Lowered} :
    Silent (.node e below :: ts) ↔ e.kind.isExport = false ∧ Silent below ∧ Silent ts := by
  simp only [Silent, Tree.forestPreorder, Tree.preorder, List.mem_append, List.mem_cons, or_imp,
    forall_and, forall_eq, and_assoc]

theorem silent_flatMap {α : Type} {xs : List α} {f : α → List Lowered}
    (h : ∀ x ∈ xs, Silent (f x)) : Silent (xs.flatMap f) := by
  induction xs with
  | nil => exact silent_nil
  | cons x xs ih =>
      rw [List.flatMap_cons, silent_append]
      exact ⟨h x List.mem_cons_self, ih fun y hy => h y (List.mem_cons_of_mem _ hy)⟩

/-- A concrete tree without an export statement. -/
def Exportless (c : Concrete) : Prop := ∀ t ∈ c.preorder, t.rule ≠ .exportStatement

instance (c : Concrete) : Decidable (Exportless c) :=
  inferInstanceAs (Decidable (∀ t ∈ c.preorder, t.rule ≠ .exportStatement))

theorem Exportless.of_mem_children {c d : Concrete} (h : Exportless c) (hd : d ∈ c.children) :
    Exportless d := by
  intro k hk
  refine h k ?_
  rw [preorder_eq_cons, forestPreorder_eq_flatMap]
  exact List.mem_cons_of_mem _ (List.mem_flatMap.mpr ⟨d, hd, hk⟩)

theorem Role.Quiet.keywords_eq_nil {role : Role} (h : role.Quiet) : role.keywords = [] := by
  cases role
  case plain keywords => exact h
  all_goals rfl

theorem Role.Quiet.isExport_of_mem_kinds {role : Role} (hrole : role.Quiet) {rule : Rule}
    (hrule : rule ≠ .exportStatement) {kind : Kind} (h : kind ∈ role.kinds rule) :
    kind.isExport = false := by
  have hkinds : ∀ kind ∈ rule.kinds, kind.isExport = false := by
    cases rule
    case exportStatement => exact absurd rfl hrule
    all_goals decide
  cases role
  case plain keywords => exact hkinds kind h
  case member => exact hkinds kind h
  case exportClause => exact hrole.elim
  case exportSpecifier => exact hrole.elim
  all_goals
    revert h kind
    simp [Role.kinds, Kind.isExport]

theorem ReadIn.quiet {source : String} {role role' : Role} {c d : Concrete}
    (h : ReadIn source role c role' d) (hrole : role.Quiet) (hc : Exportless c) :
    role'.Quiet ∧ Exportless d := by
  induction h with
  | here => exact ⟨hrole, hc⟩
  | @inside _ _ c _ _ hd _ ih =>
      have hrule : c.label.rule ≠ .exportStatement :=
        hc c.label (preorder_eq_cons c ▸ List.mem_cons_self)
      exact ih (Lowering.quiet_plan source _ _ _ hrole hrule) (hc.of_mem_children hd)

namespace Lowering

/-- What holds no export statement leaves no element of an export. -/
theorem silent_lower (source : String) {role : Role} (hrole : role.Quiet) (c : Concrete)
    (hc : Exportless c) : Silent (lower source role c) := by
  intro e he
  by_contra hexport
  obtain ⟨x, hx, rfl⟩ := exists_within_of_mem_forestPreorder _ he
  have hkind : x.label.kind.isCommon = false := by
    revert hexport
    cases x.label.kind <;> decide
  obtain ⟨role', d, hread, horigin⟩ := exists_origin source hkind c role hx
  obtain ⟨hrole', hd⟩ := hread.quiet hrole hc
  -- A quiet role has no keywords, and away from export statements it allows no kind of theirs.
  rcases horigin with hkeyword | ⟨_, hmade⟩
  · rw [hrole'.keywords_eq_nil] at hkeyword
    cases hkeyword
  · have hrule : d.label.rule ≠ .exportStatement :=
      hd d.label (preorder_eq_cons d ▸ List.mem_cons_self)
    exact hexport (hrole'.isExport_of_mem_kinds hrule hmade)

end Lowering

end PropSurface
