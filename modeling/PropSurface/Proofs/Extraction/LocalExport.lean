import PropSurface.Concrete.Sample
import PropSurface.Proofs.Element.Origin
import PropSurface.Proofs.Element.Relocation
import PropSurface.Proofs.Element.Statements
import PropSurface.Proofs.Extraction.PropType

/-!
# A class exported by name and in place

A module can declare a class and then export its name, or export the class where it is declared.
The first way finds the prop type in the extends clause.  The second one looks at what stands
right after the name of the class.

**Definitions.**
* `SameClass`: the same class, read at two places.
* `ExportsByName`, `ExportsInPlace`: the two ways.

**Results.**
* `localPropType?_byName`, `localPropType?_inPlace`: the prop type that each of them finds.
* `localPropType?_agree_iff`: they agree unless type parameters stand in front of the extends
  clause, or an implements clause is the only one.
-/

namespace PropSurface

open Lowering

/-! ### The same class at two places -/

/-- Two classes that are written alike, except that they may stand in different sources and at
different places.  What role they have in the statement around them is left open. -/
structure SameClass (g : Span → Span) (source source' : String) (c c' : Concrete) : Prop where
  rule : c'.label.rule = c.label.rule
  children : c'.children = c.children.map (Tree.map (Token.move g))
  text : ∀ t ∈ Tree.forestPreorder c.children, SameText g source source' t

/-- The same parts at other places. -/
def ClassHeader.move (g : Span → Span) (h : ClassHeader) : ClassHeader where
  name := h.name.map (Token.move g)
  parameters := h.parameters.map (Tree.map (Token.move g))
  heritage := h.heritage.map (Tree.map (Token.move g))
  extending := h.extending.map (Tree.map (Token.move g))
  implementing := h.implementing.map (Tree.map (Token.move g))
  body := h.body.map (Token.move g)

theorem Concrete.parts_of_children {g : Span → Span} {c c' : Concrete}
    (h : c'.children = c.children.map (Tree.map (Token.move g))) :
    c'.parts = c.parts.map (Tree.map (Token.move g)) := by
  rw [Concrete.parts, Concrete.parts, h, List.filter_map]
  simp [Function.comp_def]

theorem Concrete.parts_map (g : Span → Span) (c : Concrete) :
    Concrete.parts (c.map (Token.move g)) = c.parts.map (Tree.map (Token.move g)) :=
  parts_of_children (Tree.children_map ..)

namespace SameClass

variable {g : Span → Span} {source source' : String} {c c' : Concrete} {h : ClassHeader}

theorem isClass (hsame : SameClass g source source' c c') (hc : IsClass c h) :
    IsClass c' (h.move g) where
  rule := hsame.rule.trans hc.rule
  parts := by
    rw [Concrete.parts_of_children hsame.children, List.filter_map]
    simp only [Function.comp_def, Tree.label_map, Token.rule_move]
    rw [hc.parts]
    simp [ClassHeader.move, Option.toList_map]
  name_eq := by
    rw [Concrete.filling?, hsame.children, List.find?_map]
    simp only [Function.comp_def, Tree.label_map, Token.fills_move]
    exact congrArg (Option.map _) hc.name_eq
  name_only := by
    intro d hd
    have hmap : (h.move g).parameters.toList ++ [(h.move g).body] =
        (h.parameters.toList ++ [h.body]).map (Tree.map (Token.move g)) := by
      simp [ClassHeader.move, Option.toList_map]
    rw [hmap] at hd
    obtain ⟨e, he, rfl⟩ := List.mem_map.mp hd
    simpa using hc.name_only e he
  name_rule := by simpa [ClassHeader.move] using hc.name_rule
  parameters_kind := by
    intro d hd
    obtain ⟨e, he, rfl⟩ := Option.map_eq_some_iff.mp hd
    simpa using hc.parameters_kind e he
  body_kind := by simpa [ClassHeader.move] using hc.body_kind
  heritage_rule := by
    intro d hd
    obtain ⟨e, he, rfl⟩ := Option.map_eq_some_iff.mp hd
    simpa using hc.heritage_rule e he
  heritage_isSome := by simpa [ClassHeader.move] using hc.heritage_isSome
  heritage_parts := by
    intro d hd
    obtain ⟨e, he, rfl⟩ := Option.map_eq_some_iff.mp hd
    rw [Concrete.parts_map, hc.heritage_parts e he]
    simp [ClassHeader.move, Option.toList_map]
  extending_rule := by
    intro d hd
    obtain ⟨e, he, rfl⟩ := Option.map_eq_some_iff.mp hd
    simpa using hc.extending_rule e he
  implementing_rule := by
    intro d hd
    obtain ⟨e, he, rfl⟩ := Option.map_eq_some_iff.mp hd
    simpa using hc.implementing_rule e he

end SameClass

/-! ### References of moved clauses -/

section Move

variable {g : Span → Span} {source source' : String}

theorem firstReference?_map (t : Lowered) :
    firstReference? (t.map (Element.move g)) = firstReference? t := by
  rw [firstReference?, firstReference?, Tree.levelOrder_map, List.findSome?_map]
  simp only [Function.comp_def, Tree.label_map]
  rfl

theorem clauseReference?_map (t : Lowered) :
    clauseReference? (t.map (Element.move g)) = clauseReference? t := by
  rw [clauseReference?, clauseReference?, Tree.children_map, List.filter_map, List.findSome?_map]
  simp only [Function.comp_def, Tree.label_map, firstReference?_map]
  rfl

theorem findSome?_clause_move {role : Role} (hrole : role.move g = role) {clause : Option Concrete}
    (htext : ∀ d ∈ clause, ∀ t ∈ Tree.preorder d, SameText g source source' t) :
    (((clause.map (Tree.map (Token.move g))).toList.flatMap (lower source' role)).findSome?
        clauseReference?) =
      (clause.toList.flatMap (lower source role)).findSome? clauseReference? := by
  cases clause with
  | none => rfl
  | some d =>
      have hmove := lower_move role d (htext d rfl)
      rw [hrole] at hmove
      simp only [Option.map_some, Option.toList_some, List.flatMap_singleton, hmove,
        List.findSome?_map, Function.comp_def, clauseReference?_map]

end Move

namespace IsClass

variable {c : Concrete} {h : ClassHeader}

theorem part_mem (hc : IsClass c h) {d : Concrete}
    (hd : d ∈ h.name :: (h.parameters.toList ++ h.heritage.toList ++ [h.body])) :
    d ∈ c.parts ∧ d.label.rule ≠ .decorator := by
  rw [← hc.parts] at hd
  simpa using List.mem_filter.mp hd

theorem clause_mem_parts (hc : IsClass c h) {d : Concrete}
    (hd : d ∈ h.extending.toList ++ h.implementing.toList) :
    ∃ heritage ∈ h.heritage, d ∈ heritage.parts := by
  cases hheritage : h.heritage with
  | none =>
      have hsome := hc.heritage_isSome
      rw [hheritage] at hsome
      cases hextending : h.extending <;> cases himplementing : h.implementing <;>
        simp [hextending, himplementing] at hsome hd
  | some heritage => exact ⟨heritage, rfl, by rwa [hc.heritage_parts heritage hheritage]⟩

end IsClass

theorem Concrete.preorder_subset_of_mem_parts {c d : Concrete} (h : d ∈ c.parts) :
    d.preorder ⊆ Tree.forestPreorder c.children := by
  intro t ht
  rw [Tree.forestPreorder_eq_flatMap]
  exact List.mem_flatMap.mpr ⟨d, (List.mem_filter.mp h).1, ht⟩

theorem Concrete.preorder_subset_preorder {c d : Concrete} (h : d ∈ c.parts) :
    d.preorder ⊆ c.preorder := by
  rw [Tree.preorder_eq_cons c]
  exact fun t ht => List.mem_cons_of_mem _ (preorder_subset_of_mem_parts h ht)

namespace SameClass

variable {g : Span → Span} {source source' : String} {c c' : Concrete} {h : ClassHeader}

theorem sameText_clause (hsame : SameClass g source source' c c') (hc : IsClass c h)
    {d : Concrete} (hd : d ∈ h.extending.toList ++ h.implementing.toList) :
    ∀ t ∈ d.preorder, SameText g source source' t := by
  obtain ⟨heritage, hheritage, hpart⟩ := hc.clause_mem_parts hd
  have hmem : heritage ∈ c.parts := (hc.part_mem (by simp [Option.mem_def.mp hheritage])).1
  intro t ht
  exact hsame.text t (Concrete.preorder_subset_of_mem_parts hmem
    (Concrete.preorder_subset_preorder hpart ht))

theorem extendsType_move (hsame : SameClass g source source' c c') (hc : IsClass c h) :
    (h.move g).extendsType source' = h.extendsType source :=
  findSome?_clause_move rfl fun d hd => hsame.sameText_clause hc (by simp [Option.mem_def.mp hd])

theorem implementsType_move (hsame : SameClass g source source' c c') (hc : IsClass c h) :
    (h.move g).implementsType source' = h.implementsType source :=
  findSome?_clause_move rfl fun d hd => hsame.sameText_clause hc (by simp [Option.mem_def.mp hd])

end SameClass

/-! ### The two ways to export -/

/-- A module of a class and a default export of a name. -/
def ExportsByName (source : String) (root c : Concrete) (name : String) : Prop :=
  ∃ statement value, root.parts = [c, statement] ∧ statement.label.rule = .exportStatement ∧
    statement.filling? "declaration" = none ∧ statement.filling? "value" = some value ∧
    value.label.rule = .identifier ∧ value.text source = name

/-- A module of a default export of a class. -/
def ExportsInPlace (root c : Concrete) : Prop :=
  ∃ statement, root.parts = [statement] ∧ statement.label.rule = .exportStatement ∧
    (statement.filling? "declaration" = some c ∨
      statement.filling? "declaration" = none ∧ statement.filling? "value" = some c) ∧
    (statement.standing? .exportToken).isSome ∧ (statement.standing? .defaultToken).isSome

/-- No export stands in a class, its decorators apart. -/
def ClassExportless (c : Concrete) : Prop :=
  ∀ d ∈ c.parts, d.label.rule ≠ .decorator → Exportless d

instance (c : Concrete) : Decidable (ClassExportless c) :=
  inferInstanceAs (Decidable (∀ d ∈ c.parts, d.label.rule ≠ .decorator → Exportless d))

section Silence

variable {source : String} {c : Concrete} {h : ClassHeader}

theorem silent_clause (hc : IsClass c h) (hquiet : ClassExportless c) {role : Role}
    (hrole : role.Quiet) {d : Concrete} (hd : d ∈ h.extending.toList ++ h.implementing.toList) :
    Silent (lower source role d) := by
  obtain ⟨heritage, hheritage, hpart⟩ := hc.clause_mem_parts hd
  obtain ⟨hmem, hrule⟩ := hc.part_mem (d := heritage) (by simp [Option.mem_def.mp hheritage])
  refine silent_lower source hrole d fun t ht => ?_
  exact hquiet heritage hmem hrule t (Concrete.preorder_subset_preorder hpart ht)

/-- What stands below the element of a class, its keywords apart, is no element of an export. -/
theorem silent_classBody (hc : IsClass c h) (hquiet : ClassExportless c) :
    Silent (identifier source h.name.label ::
      (h.parameters.toList.flatMap (lower source (.plain [])) ++ h.clauses source ++
        lower source (.plain []) h.body)) := by
  have hplain : ∀ d ∈ h.parameters.toList ++ [h.body], Silent (lower source (.plain []) d) := by
    intro d hd
    obtain ⟨hmem, hrule⟩ := hc.part_mem (d := d) (by simp at hd ⊢; tauto)
    have hplain : (Role.plain []).Quiet := rfl
    exact silent_lower source hplain d (hquiet d hmem hrule)
  refine silent_cons.mpr ⟨rfl, silent_nil, silent_append.mpr ⟨silent_append.mpr ⟨?_, ?_⟩, ?_⟩⟩
  · exact silent_flatMap fun d hd => hplain d (List.mem_append_left _ hd)
  · have hextends : Role.extendsClause.Quiet := trivial
    have himplements : (Role.typeClause .implementing).Quiet := trivial
    exact silent_append.mpr
      ⟨silent_flatMap fun d hd => silent_clause hc hquiet hextends (List.mem_append_left _ hd),
        silent_flatMap fun d hd => silent_clause hc hquiet himplements (List.mem_append_right _ hd)⟩
  · exact hplain h.body (by simp)

end Silence

theorem Silent.kind_ne {ts : List Lowered} (h : Silent ts) {kind : Kind}
    (hkind : kind.isExport = true) : ∀ e ∈ Tree.forestPreorder ts, e.kind ≠ kind := by
  rintro e he rfl
  rw [h e he] at hkind
  cases hkind

/-! ### Export by name -/

section ByName

variable {file b : Element} {cls : Lowered}

/-- The name that a default export after a class gives. -/
theorem assignedName?_of_last (hsilent : Silent [cls]) (hb : b.kind = .exportAssignment)
    {text : String} {span : Span} :
    assignedName? (.ofRoot (.node file [cls, .node b [leaf ⟨.identifier text, span⟩]])) =
      some ⟨leaf ⟨.identifier text, span⟩, [⟨[], b, []⟩, ⟨[cls], file, []⟩]⟩ := by
  rw [assignedName?, Node.query?_descendant_of_sole
    (m := ⟨.node b [leaf ⟨.identifier text, span⟩], [⟨[cls], file, []⟩]⟩)]
  · rw [Node.query?_child rfl]
    rfl
  · exact Cursor.exists_mem_descendants_iff.mpr ⟨_, by simp [Cursor.children, Cursor.fan,
      Cursor.ofRoot], .inl rfl⟩
  · exact hb
  · intro m hm hkind
    obtain ⟨d, hd, hm⟩ := Cursor.exists_mem_descendants_iff.mp hm
    simp only [Cursor.children, Cursor.ofRoot, Cursor.fan, Tree.label_node, Tree.children_node,
      List.mem_cons, List.not_mem_nil, or_false] at hd
    rcases hd with rfl | rfl
    · -- Nothing in the class is a default export.
      have hlabel : m.label ∈ Tree.forestPreorder [cls] := by
        rw [Tree.forestPreorder]
        exact List.mem_append_left _ (Node.label_mem_preorder hm)
      exact absurd hkind (hsilent.kind_ne rfl _ hlabel)
    · rcases hm with rfl | ⟨k, hk⟩
      · rfl
      · have hbelow := Node.label_mem_of_mem_descendants hk
        simp only [Tree.children_node, leaf, Tree.forestPreorder, Tree.preorder, List.append_nil,
          List.mem_singleton] at hbelow
        rw [Node.kind, hbelow] at hkind
        cases hkind

theorem class?_of_first {name : String} {span : Span} {below ts : List Lowered} :
    class? (.ofRoot (.node file (.node ⟨.classDeclaration (some name), span⟩ below :: ts))) name =
      some ⟨.node ⟨.classDeclaration (some name), span⟩ below, [⟨[], file, ts⟩]⟩ := by
  obtain ⟨deeper, hdescendants⟩ := Cursor.exists_descendants_eq_append
    (.ofRoot (.node file (.node ⟨.classDeclaration (some name), span⟩ below :: ts)))
  rw [class?, Node.search?_eq_find?, hdescendants]
  refine List.find?_cons_of_pos ?_
  simp [Node.is, Node.isNamed, Node.kind, Node.name?, Cursor.label, Element.kind, Payload.kind,
    Element.name?, Payload.name?]

/-- The prop type of a class in front of a default export of its name. -/
theorem localPropType?_of_last {name : String} {span place : Span} {below : List Lowered}
    (hsilent : Silent below) (hb : b.kind = .exportAssignment) {root : Node}
    (hroot : root = .ofRoot (.node file [.node ⟨.classDeclaration (some name), span⟩ below,
      .node b [leaf ⟨.identifier name, place⟩]])) :
    ∃ cls : Node, cls.focus = .node ⟨.classDeclaration (some name), span⟩ below ∧
      localPropType? root = classPropType? cls := by
  have hclass : Silent [.node ⟨.classDeclaration (some name), span⟩ below] :=
    silent_cons.mpr ⟨rfl, hsilent, silent_nil⟩
  have hinline : inlinePropType? root = none := by
    rw [inlinePropType?, Node.query?_descendant_of_absent, Option.bind_none]
    intro e he
    rw [hroot] at he
    simp only [Cursor.ofRoot, Tree.children_node, Tree.forestPreorder, Tree.preorder, leaf,
      List.append_nil, List.mem_append, List.mem_cons, List.not_mem_nil, or_false] at he
    rcases he with (rfl | he) | rfl | rfl
    · simp [Element.kind, Payload.kind]
    · exact hsilent.kind_ne rfl e he
    · simp [hb]
    · simp [Element.kind, Payload.kind]
  refine ⟨⟨.node ⟨.classDeclaration (some name), span⟩ below,
    [⟨[], file, [.node b [leaf ⟨.identifier name, place⟩]]⟩]⟩, rfl, ?_⟩
  rw [localPropType?, hinline, Option.or_none, namedPropType?, defaultExport?, hroot,
    assignedName?_of_last hclass hb]
  exact congrArg (Option.bind · classPropType?) class?_of_first

end ByName

/-! ### Export in place -/

section InPlace

variable {file a export₁ default₁ : Element} {name : Lowered} {rest : List Lowered}

/-- The first reference of a forest that starts with a heritage clause, below the targets of that
clause. -/
def leadingReference? : List Lowered → Option String
  | [] => none
  | t :: _ => if t.label.kind = .heritageClause then clauseReference? t else none

theorem query?_after_name (before : List Lowered) (above : List (Frame Element)) :
    (Node.query? [.next .heritageClause, .child .heritageTarget, .descendant .typeReference]
        ⟨name, ⟨before, a, rest⟩ :: above⟩).bind Node.name? = leadingReference? rest := by
  cases rest with
  | nil => rfl
  | cons t ts =>
      have hadmits : (QueryStep.next .heritageClause).admits
          ⟨t, ⟨name :: before, a, ts⟩ :: above⟩ = decide (t.label.kind = .heritageClause) :=
        Bool.and_true _
      have hstep : Node.query?
          [.next .heritageClause, .child .heritageTarget, .descendant .typeReference]
          ⟨name, ⟨before, a, t :: ts⟩ :: above⟩ =
            if decide (t.label.kind = .heritageClause) then
              Node.query? [.child .heritageTarget, .descendant .typeReference]
                ⟨t, ⟨name :: before, a, ts⟩ :: above⟩
            else none := by
        rw [← hadmits]
        rfl
      rw [hstep, leadingReference?]
      by_cases hkind : t.label.kind = .heritageClause
      · rw [if_pos (decide_eq_true hkind), if_pos hkind]
        exact query?_target_reference _
      · rw [if_neg (by simpa using hkind), if_neg hkind]
        rfl

/-- The keyword of an export in place is the only one in the module. -/
theorem eq_of_exportKeyword (ha : a.kind ≠ .exportKeyword)
    (hdefault : default₁.kind = .defaultKeyword) (hsilent : Silent rest) {m : Node}
    (hm : ∃ k, (m, k) ∈ Cursor.descendants
      (.ofRoot (.node file [.node a (leaf export₁ :: leaf default₁ :: rest)])) none)
    (hkind : m.kind = .exportKeyword) :
    m = ⟨leaf export₁, [⟨[], a, leaf default₁ :: rest⟩, ⟨[], file, []⟩]⟩ := by
  obtain ⟨cls, hcls, hm⟩ := Cursor.exists_mem_descendants_iff.mp hm
  obtain rfl : cls = ⟨.node a (leaf export₁ :: leaf default₁ :: rest), [⟨[], file, []⟩]⟩ :=
    List.mem_singleton.mp hcls
  rcases hm with rfl | hm
  · exact absurd hkind ha
  obtain ⟨d, hd, hm⟩ := Cursor.exists_mem_descendants_iff.mp hm
  rcases List.mem_cons.mp hd with rfl | hd
  · rcases hm with rfl | ⟨k, hk⟩
    · rfl
    · exact absurd (Node.label_mem_of_mem_descendants hk) List.not_mem_nil
  rcases List.mem_cons.mp hd with rfl | hd
  · rcases hm with rfl | ⟨k, hk⟩
    · rw [Node.kind, Cursor.label, leaf, Tree.label_node, hdefault] at hkind
      cases hkind
    · exact absurd (Node.label_mem_of_mem_descendants hk) List.not_mem_nil
  -- All else stands in the class after its keywords.
  have hfocus : d.focus ∈ rest := by
    have hmap := List.mem_map_of_mem (f := Cursor.focus) hd
    rwa [Cursor.map_focus_fan] at hmap
  have hlabel : m.label ∈ Tree.forestPreorder rest := by
    rw [Tree.forestPreorder_eq_flatMap]
    exact List.mem_flatMap.mpr ⟨d.focus, hfocus, Node.label_mem_preorder hm⟩
  exact absurd hkind (hsilent.kind_ne rfl _ hlabel)

/-- But for its keywords, nothing in the module is an element of an export. -/
theorem kind_ne_of_keywords (ha : a.kind.isExport = false) (hexport : export₁.kind = .exportKeyword)
    (hdefault : default₁.kind = .defaultKeyword) (hsilent : Silent rest) (kind : Kind)
    (hkind : kind.isExport = true) (hnotExport : kind ≠ .exportKeyword)
    (hnotDefault : kind ≠ .defaultKeyword) :
    ∀ e ∈ Tree.forestPreorder [.node a (leaf export₁ :: leaf default₁ :: rest)], e.kind ≠ kind := by
  intro e he
  simp only [Tree.forestPreorder, Tree.preorder, leaf, List.append_nil, List.mem_append,
    List.mem_cons, List.not_mem_nil, or_false] at he
  rcases he with rfl | rfl | rfl | he
  · rintro rfl
    rw [ha] at hkind
    cases hkind
  · rw [hexport]
    exact hnotExport.symm
  · rw [hdefault]
    exact hnotDefault.symm
  · exact hsilent.kind_ne hkind e he

/-- No name is exported by default next to an export in place. -/
theorem namedPropType?_of_keywords (ha : a.kind.isExport = false)
    (hexport : export₁.kind = .exportKeyword) (hdefault : default₁.kind = .defaultKeyword)
    (hsilent : Silent rest) :
    namedPropType? (.ofRoot (.node file [.node a (leaf export₁ :: leaf default₁ :: rest)])) =
      none := by
  have hassigned := Node.query?_descendant_of_absent [.child .identifier]
    (n := .ofRoot (.node file [.node a (leaf export₁ :: leaf default₁ :: rest)]))
    (kind_ne_of_keywords ha hexport hdefault hsilent .exportAssignment rfl
      (by decide) (by decide))
  have hspecifier := Node.query?_descendant_of_absent
    [.child .namedExports, { QueryStep.child .exportSpecifier with
      holds := Node.isNamed defaultName }]
    (n := .ofRoot (.node file [.node a (leaf export₁ :: leaf default₁ :: rest)]))
    (kind_ne_of_keywords ha hexport hdefault hsilent .exportDeclaration rfl
      (by decide) (by decide))
  rw [namedPropType?, defaultExport?, assignedName?, hassigned, exportSpecifier?, hspecifier]
  rfl

/-- A query that steps over the keywords and the name goes on after the name. -/
theorem query?_after_keywords (hdefault : default₁.kind = .defaultKeyword)
    (hname : name.label.kind = .identifier) (steps : List QueryStep)
    (above : List (Frame Element)) :
    Node.query? (.next .defaultKeyword :: .next .identifier :: steps)
        ⟨leaf export₁, ⟨[], a, leaf default₁ :: name :: rest⟩ :: above⟩ =
      Node.query? steps ⟨name, ⟨[leaf default₁, leaf export₁], a, rest⟩ :: above⟩ := by
  refine (if_pos ?_).trans (if_pos ?_)
  · simp [QueryStep.admits, QueryStep.next, Node.is, Node.kind, Cursor.label, leaf, hdefault]
  · simp [QueryStep.admits, QueryStep.next, Node.is, Node.kind, Cursor.label, hname]

/-- The prop type of an export in place: the first reference of what follows the name, if that is
a clause. -/
theorem localPropType?_of_keywords (ha : a.kind.isExport = false)
    (hexport : export₁.kind = .exportKeyword) (hdefault : default₁.kind = .defaultKeyword)
    (hname : name.label.kind = .identifier) (hsilent : Silent (name :: rest)) :
    localPropType?
        (.ofRoot (.node file [.node a (leaf export₁ :: leaf default₁ :: name :: rest)])) =
      leadingReference? rest := by
  have hkeyword : a.kind ≠ .exportKeyword := by
    intro hkind
    rw [hkind] at ha
    cases ha
  have hsole : Node.query?
      [.descendant .exportKeyword, .next .defaultKeyword, .next .identifier, .next .heritageClause,
        .child .heritageTarget, .descendant .typeReference]
      (.ofRoot (.node file [.node a (leaf export₁ :: leaf default₁ :: name :: rest)])) = _ :=
    Node.query?_descendant_of_sole _
      (Cursor.exists_mem_descendants_iff.mpr ⟨_, List.mem_cons_self, .inr
        (Cursor.exists_mem_descendants_iff.mpr ⟨_, List.mem_cons_self, .inl rfl⟩)⟩)
      hexport fun m hm hkind => eq_of_exportKeyword hkeyword hdefault hsilent hm hkind
  rw [localPropType?, namedPropType?_of_keywords ha hexport hdefault hsilent, Option.none_or,
    inlinePropType?, hsole, query?_after_keywords hdefault hname, query?_after_name]

end InPlace

section Ways

variable {source : String} {root c : Concrete} {h : ClassHeader}

/-- A class that is exported by name has its prop type from its extends clause. -/
theorem localPropType?_byName (hc : IsClass c h) (hquiet : ClassExportless c)
    (hroot : ExportsByName source root c (h.name.text source)) :
    localPropType? (.ofRoot (lowerRoot source root)) = h.extendsType source := by
  obtain ⟨statement, value, hparts, hrule, hdeclaration, hvalue, hidentifier, htext⟩ := hroot
  have hnotClass : value.label.rule ≠ .classLike := by
    rw [hidentifier]
    decide
  have hlower : lowerRoot source root =
      .node ⟨.sourceFile, root.label.span⟩ (lower source (.plain []) c ++
        [.node ⟨.exportAssignment, statement.label.span⟩
          [leaf ⟨.identifier (h.name.text source), value.label.span⟩]]) := by
    rw [lowerRoot_eq, hparts, List.flatMap_cons, List.flatMap_singleton,
      lower_exportValue hrule hdeclaration hvalue hnotClass, lower_plain_identifier hidentifier,
      ← htext]
    rfl
  have hclass := hc.lower_eq source []
  rw [hclass] at hlower
  obtain ⟨cls, hfocus, hprop⟩ := localPropType?_of_last (silent_classBody hc hquiet) rfl
    (congrArg Cursor.ofRoot hlower)
  rw [hprop]
  exact hc.classPropType?_eq (show lower source (.plain (exportKeywords [])) c = [cls.focus] from
    hfocus ▸ hclass)

/-- After the name of a class stand its type parameters if it has any, then its extends clause, and
then its implements clause. -/
theorem leadingReference?_header (hc : IsClass c h) (source : String) :
    leadingReference? (h.parameters.toList.flatMap (lower source (.plain [])) ++ h.clauses source ++
        lower source (.plain []) h.body) =
      if h.parameters.isSome then none
      else if h.extending.isSome then h.extendsType source else h.implementsType source := by
  cases hparameters : h.parameters with
  | some d =>
      rw [Option.toList_some, List.flatMap_singleton,
        lower_plain_other (hc.rule_eq_other (d := d) (by simp [hparameters]))]
      rfl
  | none =>
      cases hextending : h.extending with
      | some d =>
          simp only [ClassHeader.clauses, ClassHeader.extendsType, hextending, Option.toList_some,
            List.flatMap_singleton, lower_extendsClause, List.findSome?_singleton]
          rfl
      | none =>
          cases himplementing : h.implementing with
          | some d =>
              simp only [ClassHeader.clauses, ClassHeader.implementsType, hextending, himplementing,
                Option.toList_some, List.flatMap_singleton, lower_typeClause,
                List.findSome?_singleton]
              rfl
          | none =>
              rw [ClassHeader.clauses, ClassHeader.implementsType, hextending, himplementing,
                lower_plain_other (hc.rule_eq_other (d := h.body) (by simp))]
              rfl

/-- A class that is exported in place has its prop type from the clause right after its name. -/
theorem localPropType?_inPlace (hc : IsClass c h) (hquiet : ClassExportless c)
    (hroot : ExportsInPlace root c) :
    localPropType? (.ofRoot (lowerRoot source root)) =
      if h.parameters.isSome then none
      else if h.extending.isSome then h.extendsType source else h.implementsType source := by
  obtain ⟨statement, hparts, hrule, hdeclared, hexport, hdefault⟩ := hroot
  obtain ⟨exportToken, hexport⟩ := Option.isSome_iff_exists.mp hexport
  obtain ⟨defaultToken, hdefault⟩ := Option.isSome_iff_exists.mp hdefault
  have hkeywords : exportKeywords (statement.children.map Tree.label) =
      [⟨.exportKeyword, exportToken.label.span⟩, ⟨.defaultKeyword, defaultToken.label.span⟩] := by
    simp only [exportKeywords, Concrete.standing?_labels, hexport, hdefault]
    rfl
  have hplace : statement.filling? "declaration" = some c ∨
      statement.filling? "declaration" = none ∧ statement.filling? "value" = some c ∧
        c.label.rule = .classLike :=
    hdeclared.imp_right fun hvalue => ⟨hvalue.1, hvalue.2, hc.rule⟩
  rw [lowerRoot_eq, hparts, List.flatMap_singleton, lower_exportDeclaration hrule hplace, hkeywords,
    hc.lower_eq]
  rw [List.map_cons, List.map_singleton, List.cons_append, List.singleton_append,
    localPropType?_of_keywords rfl rfl rfl rfl (silent_classBody hc hquiet),
    leadingReference?_header hc]

end Ways

/-! ### Comparison -/

/-- One class in two modules: exported by name in the first, and in place in the second. -/
structure ExportedTwice (g : Span → Span) (source source' : String) (root root' c c' : Concrete)
    (h : ClassHeader) : Prop where
  isClass : IsClass c h
  exportless : ClassExportless c
  same : SameClass g source source' c c'
  byName : ExportsByName source root c (h.name.text source)
  inPlace : ExportsInPlace root' c'

theorem SameClass.exportless {g : Span → Span} {source source' : String} {c c' : Concrete}
    (hsame : SameClass g source source' c c') (hquiet : ClassExportless c) :
    ClassExportless c' := by
  intro d hd hrule
  rw [Concrete.parts_of_children hsame.children] at hd
  obtain ⟨e, he, rfl⟩ := List.mem_map.mp hd
  rw [Tree.label_map, Token.rule_move] at hrule
  intro t ht
  rw [Tree.preorder_map] at ht
  obtain ⟨k, hk, rfl⟩ := List.mem_map.mp ht
  exact hquiet e he hrule k hk

/-- A class that is exported by name has the prop type that its extends clause gives, whatever
its other clauses and its type parameters are.  Exported in place it has none if it has type
parameters, and otherwise that of its first clause.  So the two ways agree exactly if type
parameters come only with an extends clause that gives nothing, and an implements clause that
stands first gives nothing. -/
theorem localPropType?_agree_iff (g : Span → Span) (source source' : String)
    (root root' c c' : Concrete) (h : ClassHeader)
    (htwice : ExportedTwice g source source' root root' c c' h) :
    localPropType? (.ofRoot (lowerRoot source root)) = h.extendsType source ∧
    localPropType? (.ofRoot (lowerRoot source' root')) =
      (if h.parameters.isSome then none
        else if h.extending.isSome then h.extendsType source else h.implementsType source) ∧
    (localPropType? (.ofRoot (lowerRoot source root)) =
        localPropType? (.ofRoot (lowerRoot source' root')) ↔
      (h.parameters.isSome → h.extendsType source = none) ∧
        (h.parameters = none → h.extending = none → h.implementsType source = none)) := by
  obtain ⟨hc, hquiet, hsame, hbyName, hinPlace⟩ := htwice
  have hfirst := localPropType?_byName hc hquiet hbyName
  have hsecond : localPropType? (.ofRoot (lowerRoot source' root')) =
      (if h.parameters.isSome then none
        else if h.extending.isSome then h.extendsType source else h.implementsType source) := by
    rw [localPropType?_inPlace (hsame.isClass hc) (hsame.exportless hquiet) hinPlace,
      hsame.extendsType_move hc, hsame.implementsType_move hc]
    simp [ClassHeader.move]
  refine ⟨hfirst, hsecond, ?_⟩
  rw [hfirst, hsecond]
  cases hparameters : h.parameters with
  | some d => simp
  | none =>
      cases hextending : h.extending with
      | some d => simp
      | none =>
          have hnone : h.extendsType source = none := by
            rw [ClassHeader.extendsType, hextending]
            rfl
          simp [hnone, eq_comm]

/-! ### Two classes for which the ways differ

The first one has an implements clause only, the second one has type parameters.  Both take up the
same bytes. -/

namespace Badge

open Sample (rule token)

def argument (k : Nat) : Concrete :=
  rule "type_arguments" (k + 20) (k + 23) ["type_arguments"]
    [rule "type_identifier" (k + 21) (k + 22) [] []]

def implementing (k : Nat) : Concrete :=
  rule "implements_clause" (k + 8) (k + 23) []
    [ rule "generic_type" (k + 19) (k + 23) []
        [rule "type_identifier" (k + 19) (k + 20) ["name"] [], argument k] ]

def extending (k : Nat) : Concrete :=
  rule "extends_clause" (k + 11) (k + 23) []
    [rule "identifier" (k + 19) (k + 20) ["value"] [], argument k]

def parameters (k : Nat) : Concrete :=
  rule "type_parameters" (k + 7) (k + 10) ["type_parameters"]
    [rule "type_parameter" (k + 8) (k + 9) [] [rule "type_identifier" (k + 8) (k + 9) ["name"] []]]

/-- The class that implements only, from byte `k` on. -/
def implementor (k : Nat) : ClassHeader where
  name := rule "type_identifier" (k + 6) (k + 7) ["name"] []
  parameters := none
  heritage := some (rule "class_heritage" (k + 8) (k + 23) [] [implementing k])
  extending := none
  implementing := some (implementing k)
  body := rule "class_body" (k + 24) (k + 26) ["body"] []

/-- The class with type parameters, from byte `k` on. -/
def generic (k : Nat) : ClassHeader where
  name := rule "type_identifier" (k + 6) (k + 7) ["name"] []
  parameters := some (parameters k)
  heritage := some (rule "class_heritage" (k + 11) (k + 23) [] [extending k])
  extending := some (extending k)
  implementing := none
  body := rule "class_body" (k + 24) (k + 26) ["body"] []

def cls (k : Nat) (fields : List String) (h : ClassHeader) : Concrete :=
  rule "class_declaration" k (k + 26) fields
    (h.name :: (h.parameters.toList ++ h.heritage.toList ++ [h.body]))

def byName (h : ClassHeader) : Concrete :=
  rule "program" 0 43 []
    [ cls 0 [] h,
      rule "export_statement" 27 43 []
        [token "export" 27 33, token "default" 34 41, rule "identifier" 42 43 ["value"] []] ]

def inPlace (h : ClassHeader) : Concrete :=
  rule "program" 0 41 []
    [ rule "export_statement" 0 41 []
        [token "export" 0 6, token "default" 7 14, cls 15 ["declaration"] h] ]

/-- From the place in the first module to the place in the second one. -/
def shift (span : Span) : Span := ⟨span.start + 15, span.stop + 15⟩

theorem exportsByName {source : String} {h : ClassHeader}
    (hname : h.name.text source = "A") (hvalue : Source.slice source ⟨42, 43⟩ = "A") :
    ExportsByName source (byName h) (cls 0 [] h) (h.name.text source) :=
  ⟨rule "export_statement" 27 43 []
      [token "export" 27 33, token "default" 34 41, rule "identifier" 42 43 ["value"] []],
    rule "identifier" 42 43 ["value"] [], rfl, by decide +kernel, by decide +kernel, by rfl,
    by decide +kernel, hvalue.trans hname.symm⟩

theorem exportsInPlace (h : ClassHeader) : ExportsInPlace (inPlace h) (cls 15 ["declaration"] h) :=
  ⟨rule "export_statement" 0 41 []
      [token "export" 0 6, token "default" 7 14, cls 15 ["declaration"] h],
    rfl, rfl, .inl rfl, rfl, rfl⟩

theorem isClass_implementor : IsClass (cls 0 [] (implementor 0)) (implementor 0) where
  rule := by decide +kernel
  parts := by rfl
  name_eq := by rfl
  name_only := by decide +kernel
  name_rule := by decide +kernel
  parameters_kind := by simp [implementor]
  body_kind := rfl
  heritage_rule := by
    rintro d ⟨⟩
    decide +kernel
  heritage_isSome := rfl
  heritage_parts := by
    rintro d ⟨⟩
    rfl
  extending_rule := by simp [implementor]
  implementing_rule := by
    rintro d ⟨⟩
    decide +kernel

theorem isClass_generic : IsClass (cls 0 [] (generic 0)) (generic 0) where
  rule := by decide +kernel
  parts := by rfl
  name_eq := by rfl
  name_only := by decide +kernel
  name_rule := by decide +kernel
  parameters_kind := by
    rintro d ⟨⟩
    rfl
  body_kind := rfl
  heritage_rule := by
    rintro d ⟨⟩
    decide +kernel
  heritage_isSome := rfl
  heritage_parts := by
    rintro d ⟨⟩
    rfl
  extending_rule := by
    rintro d ⟨⟩
    decide +kernel
  implementing_rule := by simp [generic]

theorem exportedTwice_implementor :
    ExportedTwice shift "class A implements C<P> {}\nexport default A"
      "export default class A implements C<P> {}" (byName (implementor 0))
      (inPlace (implementor 15)) (cls 0 [] (implementor 0))
      (cls 15 ["declaration"] (implementor 15)) (implementor 0) where
  isClass := isClass_implementor
  exportless := by decide +kernel
  same := ⟨rfl, rfl, by decide +kernel⟩
  byName := exportsByName (by decide +kernel) (by decide +kernel)
  inPlace := exportsInPlace _

theorem exportedTwice_generic :
    ExportedTwice shift "class A<T> extends C<P> {}\nexport default A"
      "export default class A<T> extends C<P> {}" (byName (generic 0)) (inPlace (generic 15))
      (cls 0 [] (generic 0)) (cls 15 ["declaration"] (generic 15)) (generic 0) where
  isClass := isClass_generic
  exportless := by decide +kernel
  same := ⟨rfl, rfl, by decide +kernel⟩
  byName := exportsByName (by decide +kernel) (by decide +kernel)
  inPlace := exportsInPlace _

end Badge

/-- In place, an implements clause supplies the prop type, and type parameters hide it. -/
theorem localPropType?_ways_differ :
    ExportedTwice Badge.shift "class A implements C<P> {}\nexport default A"
      "export default class A implements C<P> {}" (Badge.byName (Badge.implementor 0))
      (Badge.inPlace (Badge.implementor 15)) (Badge.cls 0 [] (Badge.implementor 0))
      (Badge.cls 15 ["declaration"] (Badge.implementor 15)) (Badge.implementor 0) ∧
    localPropType? (.ofRoot (lowerRoot "class A implements C<P> {}\nexport default A"
      (Badge.byName (Badge.implementor 0)))) = none ∧
    localPropType? (.ofRoot (lowerRoot "export default class A implements C<P> {}"
      (Badge.inPlace (Badge.implementor 15)))) = some "P" ∧
    ExportedTwice Badge.shift "class A<T> extends C<P> {}\nexport default A"
      "export default class A<T> extends C<P> {}" (Badge.byName (Badge.generic 0))
      (Badge.inPlace (Badge.generic 15)) (Badge.cls 0 [] (Badge.generic 0))
      (Badge.cls 15 ["declaration"] (Badge.generic 15)) (Badge.generic 0) ∧
    localPropType? (.ofRoot (lowerRoot "class A<T> extends C<P> {}\nexport default A"
      (Badge.byName (Badge.generic 0)))) = some "P" ∧
    localPropType? (.ofRoot (lowerRoot "export default class A<T> extends C<P> {}"
      (Badge.inPlace (Badge.generic 15)))) = none :=
  ⟨Badge.exportedTwice_implementor, by decide +kernel, by decide +kernel,
    Badge.exportedTwice_generic, by decide +kernel, by decide +kernel⟩

theorem localPropType?_agree_iff_badge :
    ExportedTwice Badge.shift "class A<T> extends C<P> {}\nexport default A"
      "export default class A<T> extends C<P> {}" (Badge.byName (Badge.generic 0))
      (Badge.inPlace (Badge.generic 15)) (Badge.cls 0 [] (Badge.generic 0))
      (Badge.cls 15 ["declaration"] (Badge.generic 15)) (Badge.generic 0) ∧
    localPropType? (.ofRoot (lowerRoot "export default class A<T> extends C<P> {}"
      (Badge.inPlace (Badge.generic 15)))) = none :=
  ⟨Badge.exportedTwice_generic, (localPropType?_agree_iff _ _ _ _ _ _ _ _
    Badge.exportedTwice_generic).2.1.trans rfl⟩

end PropSurface
