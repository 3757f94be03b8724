import PropSurface.ParsedModule
import PropSurface.Proofs.Element.Origin

/-!
# Comments and class decorators

Comments may stand between any two children of a node, and a class may have decorators.  Neither
leaves an element, and neither has a say in how the nodes around it are read: the elements of a
source stay the same when any of them are taken away, each with all that stands below it.

**Definitions.**
* `Token.isLooseComment`, `Token.isLooseDecorator`: the nodes in question.
* `Role.spares`: the children that a node in a role can lose.
* `Trimmed`, `TrimmedAmong`, `TrimmedRoot`: a tree, a forest and a source that have lost some.

**Results.**
* `Lowering.plan_withoutComments`, `Lowering.blind_plan`: comments have no part in the plan for a
  node, and no part in what the plan builds.
* `Lowering.lower_of_isClass`, `Lowering.exists_isClass`: the nodes that can lose their decorators
  are those that become class declarations.
* `Lowering.lower_trimmed`: what a trimmed node is lowered to.
* `TrimmedRoot.lowerRoot_eq`: a trimmed source has the same elements.
-/

namespace PropSurface

/-! ### What can be taken away -/

/-- A comment that fills no role of its parent's rule. -/
def Token.isLooseComment (t : Token) : Bool := t.kind == commentKind && t.fields.isEmpty

/-- A decorator that does not fill the role of a name. -/
def Token.isLooseDecorator (t : Token) : Bool := decide (t.rule = .decorator) && !t.fills "name"

/-- Whether a node in a role becomes a class declaration. -/
def Role.isClass (role : Role) (t : Token) : Bool :=
  match role with
  | .plain _ => decide (t.rule = .classLike)
  | .member => decide (t.rule = .classLike)
  | _ => false

/-- Whether a node `t` in a role can lose its child `k`. -/
def Role.spares (role : Role) (t k : Token) : Bool :=
  k.isLooseComment || role.isClass t && k.isLooseDecorator

mutual

/-- A node that is read in a role, and the same node after children that it can spare were taken
away, from it or from nodes below it. -/
inductive Trimmed (source : String) : Role → Concrete → Concrete → Prop
  | node {role : Role} {t : Token} {ts us : List Concrete}
      (h : TrimmedAmong source (role.spares t)
        (Lowering.plan source role t (ts.map Tree.label)).roleOf ts us) :
      Trimmed source role (.node t ts) (.node t us)

/-- Children of a node before and after some that can be spared were taken away, with the roles in
which they are read. -/
inductive TrimmedAmong (source : String) :
    (Token → Bool) → (Token → Role) → List Concrete → List Concrete → Prop
  | nil {spare : Token → Bool} {roleOf : Token → Role} : TrimmedAmong source spare roleOf [] []
  | drop {spare : Token → Bool} {roleOf : Token → Role} {d : Concrete} {ts us : List Concrete}
      (hd : spare d.label = true) (h : TrimmedAmong source spare roleOf ts us) :
      TrimmedAmong source spare roleOf (d :: ts) us
  | keep {spare : Token → Bool} {roleOf : Token → Role} {d e : Concrete} {ts us : List Concrete}
      (hd : Trimmed source (roleOf d.label) d e) (h : TrimmedAmong source spare roleOf ts us) :
      TrimmedAmong source spare roleOf (d :: ts) (e :: us)

end

/-- A whole source, whose root stays, before and after comments and class decorators were taken
away. -/
structure TrimmedRoot (source : String) (root root' : Concrete) : Prop where
  label : root'.label = root.label
  children : TrimmedAmong source Token.isLooseComment (fun _ => .plain []) root.children
    root'.children

theorem Role.spares_of_isLooseComment {k : Token} (h : k.isLooseComment = true) (role : Role)
    (t : Token) : role.spares t k = true := by
  rw [spares, h, Bool.true_or]

mutual

/-- Nothing need be taken away. -/
theorem Trimmed.refl (source : String) : ∀ (role : Role) (c : Concrete), Trimmed source role c c
  | _, .node _ ts => .node (TrimmedAmong.refl source _ _ ts)

theorem TrimmedAmong.refl (source : String) (spare : Token → Bool) (roleOf : Token → Role) :
    ∀ ts : List Concrete, TrimmedAmong source spare roleOf ts ts
  | [] => .nil
  | t :: ts => .keep (Trimmed.refl source _ t) (TrimmedAmong.refl source spare roleOf ts)

end

/-! ### Comments among the children -/

/-- A search does not miss what cannot be found. -/
theorem find?_filter_of_imp {α : Type} {p q : α → Bool} (h : ∀ x, p x = true → q x = true)
    (xs : List α) : (xs.filter q).find? p = xs.find? p := by
  rw [List.find?_filter]
  refine congrArg (List.find? · xs) (funext fun x => ?_)
  cases hx : p x with
  | false => simp
  | true => simp [h x hx]

namespace Token

variable {k : Token}

/-- The children but for loose comments. -/
def withoutComments (kids : List Token) : List Token := kids.filter (!·.isLooseComment)

theorem fills_of_isLooseComment (h : k.isLooseComment = true) (field : String) :
    k.fills field = false := by
  obtain ⟨-, hfields⟩ := Bool.and_eq_true_iff.mp h
  rw [fills, List.isEmpty_iff.mp hfields, List.contains_nil]

theorem rule_of_isLooseComment (h : k.isLooseComment = true) : k.rule = .other := by
  obtain ⟨hkind, -⟩ := Bool.and_eq_true_iff.mp h
  rw [rule, beq_iff_eq.mp hkind]
  rfl

theorem isMeaningful_of_isLooseComment (h : k.isLooseComment = true) : k.isMeaningful = false := by
  obtain ⟨hkind, -⟩ := Bool.and_eq_true_iff.mp h
  rw [isMeaningful, beq_iff_eq.mp hkind, bne_self_eq_false, Bool.and_false]

/-- Whatever no loose comment is like is found among the other children. -/
theorem not_isLooseComment {p : Token → Bool} (h : ∀ k, k.isLooseComment = true → p k = false)
    (k : Token) (hk : p k = true) : (!k.isLooseComment) = true := by
  cases hloose : k.isLooseComment with
  | false => rfl
  | true =>
      rw [h k hloose] at hk
      cases hk

variable (kids : List Token)

theorem filling?_withoutComments (field : String) :
    filling? field (withoutComments kids) = filling? field kids :=
  find?_filter_of_imp (not_isLooseComment fun _ h => fills_of_isLooseComment h field) kids

theorem standing?_withoutComments {r : Rule} (hr : r ≠ .other) :
    standing? r (withoutComments kids) = standing? r kids := by
  refine find?_filter_of_imp (not_isLooseComment fun k h => ?_) kids
  rw [rule_of_isLooseComment h, decide_eq_false_iff_not]
  exact hr.symm

theorem find?_isMeaningful_withoutComments :
    (withoutComments kids).find? (·.isMeaningful) = kids.find? (·.isMeaningful) :=
  find?_filter_of_imp (not_isLooseComment fun _ h => isMeaningful_of_isLooseComment h) kids

theorem filter_isMeaningful_withoutComments :
    (withoutComments kids).filter (·.isMeaningful) = kids.filter (·.isMeaningful) := by
  rw [withoutComments, List.filter_filter]
  refine List.filter_congr fun k _ => ?_
  cases hk : k.isMeaningful with
  | false => rfl
  | true => exact not_isLooseComment (fun _ h => isMeaningful_of_isLooseComment h) k hk

end Token

/-- A plan in whose result comments have no part. -/
def Plan.Blind (p : Plan) : Prop :=
  ∀ parts : List Part, p.build (parts.filter (!·.1.isLooseComment)) = p.build parts

namespace Lowering

open Token

variable {source : String} {role : Role} {t : Token}

/-! ### Plans -/

/-- Comments have no part in the plan for a node. -/
theorem plan_withoutComments (source : String) (role : Role) (t : Token) (kids : List Token) :
    plan source role t (withoutComments kids) = plan source role t kids := by
  have hgeneric : genericName? (withoutComments kids) = genericName? kids := by
    rw [genericName?, genericName?, filling?_withoutComments, find?_isMeaningful_withoutComments]
  have hkeywords : exportKeywords (withoutComments kids) = exportKeywords kids := by
    rw [exportKeywords, exportKeywords, standing?_withoutComments _ (by decide),
      standing?_withoutComments _ (by decide)]
  have hform : exportForm (withoutComments kids) = exportForm kids := by
    simp only [exportForm, filling?_withoutComments,
      standing?_withoutComments kids (r := .equalsToken) (by decide),
      standing?_withoutComments kids (r := .exportClause) (by decide)]
  simp only [plan, planPlain, planExport, planClass, planInterface, planAlias, declaredName,
    planSpecifier, planHeritage, planHeritageType, planType, planMember, hgeneric, hkeywords,
    hform, filling?_withoutComments, filter_isMeaningful_withoutComments]

/-! ### What plans build -/

section Build

variable {roleOf : Token → Role} {payload : Payload} {first : List Lowered} {parts : List Part}

theorem meaningful_cons (part : Part) (parts : List Part) :
    meaningful (part :: parts) =
      (if part.1.isMeaningful then part.2 else []) ++ meaningful parts := by
  rw [meaningful, List.filter_cons]
  split <;> rfl

/-- Children that are not meaningful, or that leave nothing, do not count. -/
theorem meaningful_filter {q : Token → Bool}
    (h : ∀ part ∈ parts, q part.1 = false → part.1.isMeaningful = false ∨ part.2 = []) :
    meaningful (parts.filter (q ·.1)) = meaningful parts := by
  induction parts with
  | nil => rfl
  | cons part parts ih =>
      have hparts := ih fun other hother => h other (List.mem_cons_of_mem _ hother)
      rw [List.filter_cons]
      cases hkeep : q part.1 with
      | true => rw [if_pos rfl, meaningful_cons, meaningful_cons, hparts]
      | false =>
          rw [if_neg Bool.false_ne_true, meaningful_cons, hparts]
          rcases h part List.mem_cons_self hkeep with hnot | hempty
          · simp [hnot]
          · simp [hempty]

theorem meaningful_withoutComments (parts : List Part) :
    meaningful (parts.filter (!·.1.isLooseComment)) = meaningful parts := by
  refine meaningful_filter (q := fun k => !k.isLooseComment) fun part _ hloose => .inl ?_
  exact isMeaningful_of_isLooseComment (by simpa using hloose)

theorem filling_withoutComments (field : String) (parts : List Part) :
    filling field (parts.filter (!·.1.isLooseComment)) = filling field parts := by
  have hfind := find?_filter_of_imp (p := fun part : Part => part.1.fills field)
    (q := fun part => !part.1.isLooseComment)
    (fun part => not_isLooseComment (fun _ h => fills_of_isLooseComment h field) part.1) parts
  rw [filling, filling, hfind]

theorem standing_withoutComments {r : Rule} (hr : r ≠ .other) (parts : List Part) :
    standing r (parts.filter (!·.1.isLooseComment)) = standing r parts := by
  have hnot : ∀ k : Token, k.isLooseComment = true → decide (k.rule = r) = false := by
    intro k hk
    rw [rule_of_isLooseComment hk, decide_eq_false_iff_not]
    exact hr.symm
  have hfind := find?_filter_of_imp (p := fun part : Part => decide (part.1.rule = r))
    (q := fun part => !part.1.isLooseComment)
    (fun part => not_isLooseComment hnot part.1) parts
  rw [standing, standing, hfind]

theorem extendsTargets_withoutComments (parts : List Part) :
    extendsTargets (parts.filter (!·.1.isLooseComment)) = extendsTargets parts := by
  have hfilter : (parts.filter (!·.1.isLooseComment)).filter (·.1.isMeaningful) =
      parts.filter (·.1.isMeaningful) := by
    rw [List.filter_filter]
    refine List.filter_congr fun part _ => ?_
    cases hpart : part.1.isMeaningful with
    | false => rfl
    | true =>
        exact not_isLooseComment (fun _ h => isMeaningful_of_isLooseComment h) part.1 hpart
  rw [extendsTargets, extendsTargets, hfilter]

theorem blind_constant (elements : List Lowered) : Plan.Blind (.constant elements) :=
  fun _ => rfl

theorem blind_meaningful : Plan.Blind ⟨roleOf, meaningful⟩ := meaningful_withoutComments

theorem blind_wrap : Plan.Blind ⟨roleOf, wrap payload t first⟩ := by
  intro parts
  simp only [wrap, meaningful_withoutComments]

theorem blind_node_filling (e : Element) (first : List Lowered) (field : String) :
    Plan.Blind ⟨roleOf, fun parts => [.node e (first ++ filling field parts)]⟩ := by
  intro parts
  simp only [filling_withoutComments]

end Build

section Plans

variable (source : String) (t : Token) (kids : List Token)

theorem blind_planSpecifier (make : String → Option String → Payload) :
    (planSpecifier source make t kids).Blind := by
  unfold planSpecifier
  split
  · exact blind_wrap
  · exact blind_constant _

theorem blind_planExport : (planExport source t kids).Blind := by
  unfold planExport
  split
  · exact filling_withoutComments _
  · exact blind_node_filling _ [] _
  · exact blind_wrap
  · intro parts
    simp only [standing_withoutComments (r := .exportClause) (by decide)]
  · exact blind_wrap

theorem blind_planPlain (keywords : List Element) :
    (planPlain source keywords t kids).Blind := by
  cases hrule : t.rule <;> simp only [planPlain, hrule]
  case importStatement => exact blind_wrap
  case exportStatement => exact blind_planExport source t kids
  case classLike => exact blind_wrap
  case interfaceDeclaration => exact blind_wrap
  case typeAliasDeclaration => exact blind_wrap
  case identifier => exact blind_constant _
  case propertyIdentifier => exact blind_constant _
  case typeIdentifier => exact blind_constant _
  case otherIdentifier => exact blind_constant _
  case string => exact blind_constant _
  all_goals exact blind_wrap

theorem blind_planExtends : (planExtends t).Blind := by
  intro parts
  simp only [planExtends, extendsTargets_withoutComments]

theorem blind_planType : (planType source t kids).Blind := by
  cases hrule : t.rule <;> simp only [planType, hrule]
  case typeIdentifier => exact blind_constant _
  case nestedTypeIdentifier => exact blind_constant _
  case genericType => exact blind_node_filling _ _ _
  case objectType => exact blind_wrap
  case intersectionType => exact blind_wrap
  case annotatedType => exact blind_meaningful
  case parenthesizedType => exact blind_meaningful
  case identifier => exact blind_constant _
  case propertyIdentifier => exact blind_constant _
  case string => exact blind_constant _
  all_goals exact blind_wrap

theorem blind_planMember : (planMember source t kids).Blind := by
  unfold planMember
  split
  · exact blind_node_filling _ [identifier source _] _
  · exact blind_constant _
  · exact blind_planPlain source t kids []

/-- Comments have no part in what the plan for a node builds. -/
theorem blind_plan (role : Role) : (plan source role t kids).Blind := by
  cases role <;> simp only [plan]
  case plain keywords => exact blind_planPlain source t kids keywords
  case importClause => exact blind_wrap
  case namedImports => exact blind_wrap
  case exportClause => exact blind_wrap
  case importSpecifier => exact blind_planSpecifier source t kids _
  case exportSpecifier => exact blind_planSpecifier source t kids _
  case classHeritage =>
    unfold planHeritage
    split
    · exact blind_meaningful
    · exact blind_planExtends t
  case extendsClause => exact blind_planExtends t
  case typeClause heritage => exact blind_wrap
  case heritageType =>
    unfold planHeritageType
    split
    · exact blind_node_filling _ _ _
    · exact blind_constant _
  case instantiation => exact blind_meaningful
  case interfaceBody => exact blind_meaningful
  case member => exact blind_planMember source t kids
  case typeArguments => exact blind_meaningful
  case type => exact blind_planType source t kids
  case operand =>
    split
    · exact blind_meaningful
    · exact blind_planType source t kids
  case name => exact blind_constant _
  case ignored => exact blind_constant _

end Plans

/-! ### Classes -/

/-- A class declaration is read as one. -/
theorem plan_of_isClass (h : role.isClass t = true) (source : String) :
    ∃ keywords, ∀ kids, plan source role t kids = planClass source keywords t kids := by
  cases role <;> simp only [Role.isClass, decide_eq_true_eq, Bool.false_eq_true] at h
  case plain keywords => exact ⟨keywords, fun kids => by simp only [plan, planPlain, h]⟩
  case member => exact ⟨[], fun kids => by simp only [plan, planMember, planPlain, h]⟩

/-- The nodes that can lose their decorators become class declarations. -/
theorem lower_of_isClass {c : Concrete} (h : role.isClass c.label = true) (source : String) :
    ∃ name below, lower source role c = [.node ⟨.classDeclaration name, c.label.span⟩ below] := by
  obtain ⟨keywords, hplan⟩ := plan_of_isClass h source
  rw [lower_eq_build, hplan]
  exact ⟨_, _, rfl⟩

/-- Every class declaration of a source comes from a node that can lose its decorators. -/
theorem exists_isClass {root : Concrete} {x : Lowered}
    (hx : Tree.Occurs x (lowerRoot source root)) (hkind : x.label.kind = .classDeclaration) :
    ∃ d ∈ root.parts, ∃ role c, ReadIn source (.plain []) d role c ∧ lower source role c = [x] ∧
      role.isClass c.label = true := by
  obtain ⟨c, d, hd, role, hread, hlower, hmade⟩ :=
    exists_becomes hx (by rw [hkind]; rfl) (by rw [hkind]; rfl) (by rw [hkind]; decide)
  rw [hkind] at hmade
  refine ⟨d, hd, role, c, hread, hlower, ?_⟩
  have hrule : Kind.classDeclaration ∈ c.label.rule.kinds → c.label.rule = .classLike := by
    cases c.label.rule <;> decide
  cases role
  case plain keywords => exact decide_eq_true (hrule hmade)
  case member => exact decide_eq_true (hrule hmade)
  all_goals
    revert hmade
    simp [Role.kinds]

/-- What a node can spare has no part in the plan for it. -/
theorem plan_filter_spares (source : String) (role : Role) (t : Token) (kids : List Token) :
    plan source role t (kids.filter (!role.spares t ·)) = plan source role t kids := by
  cases hclass : role.isClass t with
  | false =>
      simp only [Role.spares, hclass, Bool.false_and, Bool.or_false]
      exact plan_withoutComments source role t kids
  | true =>
      obtain ⟨keywords, hplan⟩ := plan_of_isClass hclass source
      have hname : filling? "name" (kids.filter (!role.spares t ·)) = filling? "name" kids := by
        refine find?_filter_of_imp (fun k hk => ?_) kids
        have hcomment : k.isLooseComment = false := by
          simpa using not_isLooseComment (fun _ h => fills_of_isLooseComment h "name") k hk
        simp [Role.spares, hcomment, isLooseDecorator, hk]
      rw [hplan, hplan, planClass, planClass, hname]

/-- What a node can spare has no part in what the plan for it builds. -/
theorem build_filter_spares (source : String) (role : Role) (t : Token) (kids : List Token)
    (cs : List Concrete) :
    (plan source role t kids).build
        ((lowerParts source (plan source role t kids).roleOf cs).filter
          (!role.spares t ·.1)) =
      (plan source role t kids).build
        (lowerParts source (plan source role t kids).roleOf cs) := by
  cases hclass : role.isClass t with
  | false =>
      simp only [Role.spares, hclass, Bool.false_and, Bool.or_false]
      exact blind_plan source t kids role _
  | true =>
      obtain ⟨keywords, hplan⟩ := plan_of_isClass hclass source
      have hbuild : ∀ parts parts', meaningful parts = meaningful parts' →
          (planClass source keywords t kids).build parts =
            (planClass source keywords t kids).build parts' :=
        fun _ _ h => congrArg (fun below => [Tree.node _ (_ ++ below)]) h
      rw [hplan kids]
      apply hbuild
      refine meaningful_filter (q := fun k => !role.spares t k) fun part hpart hspare => ?_
      obtain ⟨c, -, rfl⟩ := List.mem_map.mp (lowerParts_eq_map .. ▸ hpart)
      simp only [Role.spares, hclass, Bool.true_and, Bool.not_eq_false', Bool.or_eq_true] at hspare
      rcases hspare with hcomment | hdecorator
      · exact .inl (isMeaningful_of_isLooseComment hcomment)
      · -- Decorators of a class are read as nothing.
        have hrule : c.label.rule = .decorator :=
          of_decide_eq_true (Bool.and_eq_true_iff.mp hdecorator).1
        right
        simp only [planClass, hrule, if_true]
        rw [lower_eq_build]
        rfl

/-! ### Trimmed trees -/

theorem filter_labels (source : String) (roleOf : Token → Role) (keep : Token → Bool)
    (cs : List Concrete) :
    (cs.map Tree.label).filter keep =
      ((lowerParts source roleOf cs).filter (keep ·.1)).map Prod.fst := by
  rw [lowerParts_eq_map, List.filter_map, List.filter_map, List.map_map]
  rfl

theorem label_of_trimmed {c d : Concrete} (h : Trimmed source role c d) : d.label = c.label := by
  cases h
  rfl

mutual

/-- What a trimmed node is lowered to. -/
theorem lower_trimmed (source : String) :
    ∀ (c d : Concrete) (role : Role), Trimmed source role c d →
      lower source role d = lower source role c
  | .node t ts, .node _ us, role, .node h => by
      have hparts := filter_lowerParts_trimmed source ts us _ _ h
      have hlabels : (us.map Tree.label).filter (!role.spares t ·) =
          (ts.map Tree.label).filter (!role.spares t ·) := by
        have hkids := congrArg (List.map Prod.fst) hparts
        rwa [← filter_labels source _ (!role.spares t ·) us,
          ← filter_labels source _ (!role.spares t ·) ts] at hkids
      have hplan : plan source role t (us.map Tree.label) =
          plan source role t (ts.map Tree.label) := by
        rw [← plan_filter_spares, hlabels, plan_filter_spares]
      rw [lower, lower, hplan, ← build_filter_spares, hparts, build_filter_spares]

/-- The children that a trimmed node keeps, with what they are lowered to. -/
theorem filter_lowerParts_trimmed (source : String) :
    ∀ (ts us : List Concrete) (spare : Token → Bool) (roleOf : Token → Role),
      TrimmedAmong source spare roleOf ts us →
        (lowerParts source roleOf us).filter (!spare ·.1) =
          (lowerParts source roleOf ts).filter (!spare ·.1)
  | [], _, _, _, .nil => rfl
  | d :: ts, us, spare, roleOf, .drop hd h => by
      rw [lowerParts, List.filter_cons_of_neg (by simp [hd])]
      exact filter_lowerParts_trimmed source ts us spare roleOf h
  | d :: ts, e :: us, spare, roleOf, .keep hd h => by
      rw [lowerParts, lowerParts, label_of_trimmed hd, lower_trimmed source d e _ hd,
        List.filter_cons, List.filter_cons, filter_lowerParts_trimmed source ts us spare roleOf h]

end

end Lowering

/-- A trimmed source has the same elements. -/
theorem TrimmedRoot.lowerRoot_eq {source : String} {root root' : Concrete}
    (h : TrimmedRoot source root root') :
    Lowering.lowerRoot source root' = Lowering.lowerRoot source root := by
  have hparts := Lowering.filter_lowerParts_trimmed source _ _ _ _ h.children
  rw [Lowering.lowerRoot, Lowering.lowerRoot, h.label, ← Lowering.meaningful_withoutComments,
    hparts, Lowering.meaningful_withoutComments]

/-- A trimmed source is read as the same module. -/
theorem TrimmedRoot.parse_eq {source : String} {root root' : Concrete}
    (h : TrimmedRoot source root root') (hgood : root.label.hasError = false) (path : Path) :
    ParsedModule.parse path source root' = ParsedModule.parse path source root := by
  rw [ParsedModule.parse, ParsedModule.parse, h.label, hgood, h.lowerRoot_eq]
  rfl

end PropSurface
