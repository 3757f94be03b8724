import PropSurface.Binding
import PropSurface.Declaration
import PropSurface.Extraction
import PropSurface.Proofs.Element.Statements

/-!
# Modules that pass on a default export

A module can do nothing but take the default export of another module and export it as its own.
This can be spelled in several ways: the name may be imported plainly or by renaming, and it may be
exported by an assignment or in a list; or one list does both at once.

**Definitions.**
* `ImportsDefault`, `ExportsDefault`, `ForwardsDefault`: the spellings, on concrete trees.
* `Forwarding`: the elements that they leave.

**Results.**
* `ForwardsDefault.forwarding`: every spelling leaves such elements.
* `Forwarding.forwarded?_eq`, `Forwarding.localPropType?_eq_none`,
  `Forwarding.declaration?_eq_none`, `Forwarding.imported_eq`: all spellings are bound alike.
-/

namespace PropSurface

open Lowering

/-! ### Spellings -/

/-- An import of the default export of another module, as `x`. -/
inductive ImportsDefault (source x spec : String) (c : Concrete) : Prop
  /-- The name stands alone in the clause. -/
  | plain {clause text name : Concrete} (hrule : c.label.rule = .importStatement)
      (hparts : c.parts = [clause, text]) (hclause : clause.label.rule = .importClause)
      (htext : text.label.rule = .string) (hspec : unquoted source text.label = spec)
      (hname : clause.parts = [name]) (hidentifier : name.label.rule = .identifier)
      (hx : name.text source = x)
  /-- The name is what `default` is renamed to in a list. -/
  | renamed {clause text list specifier name rename : Concrete}
      (hrule : c.label.rule = .importStatement) (hparts : c.parts = [clause, text])
      (hclause : clause.label.rule = .importClause) (htext : text.label.rule = .string)
      (hspec : unquoted source text.label = spec) (hlist : clause.parts = [list])
      (hnamed : list.label.rule = .namedImports) (hspecifier : list.parts = [specifier])
      (hkind : specifier.label.rule = .importSpecifier)
      (hname : specifier.filling? "name" = some name) (hdefault : name.text source = defaultName)
      (hrename : specifier.filling? "alias" = some rename) (hx : rename.text source = x)

/-- An export of `x` as the default. -/
inductive ExportsDefault (source x : String) (c : Concrete) : Prop
  /-- The name is the value of a default export. -/
  | assigned {value : Concrete} (hrule : c.label.rule = .exportStatement)
      (hdeclaration : c.filling? "declaration" = none) (hvalue : c.filling? "value" = some value)
      (hidentifier : value.label.rule = .identifier) (hx : value.text source = x)
  /-- The name is renamed to `default` in a list. -/
  | listed {list specifier name rename : Concrete} (hrule : c.label.rule = .exportStatement)
      (hdeclaration : c.filling? "declaration" = none) (hvalue : c.filling? "value" = none)
      (hequals : c.standing? .equalsToken = none) (hlist : c.standing? .exportClause = some list)
      (hsource : c.filling? "source" = none) (hspecifier : list.parts = [specifier])
      (hkind : specifier.label.rule = .exportSpecifier)
      (hname : specifier.filling? "name" = some name) (hx : name.text source = x)
      (hrename : specifier.filling? "alias" = some rename)
      (hdefault : rename.text source = defaultName)

/-- A module that only passes on the default export of another one. -/
inductive ForwardsDefault (source x spec : String) (root : Concrete) : Prop
  /-- It is imported as `x`, and `x` is exported. -/
  | imported {i e : Concrete} (hparts : root.parts = [i, e])
      (himport : ImportsDefault source x spec i) (hexport : ExportsDefault source x e)
  /-- One list passes it on. -/
  | passedOn {c text list specifier name : Concrete} (hparts : root.parts = [c])
      (hrule : c.label.rule = .exportStatement)
      (hdeclaration : c.filling? "declaration" = none) (hvalue : c.filling? "value" = none)
      (hequals : c.standing? .equalsToken = none) (hlist : c.standing? .exportClause = some list)
      (hsource : c.filling? "source" = some text) (hspec : unquoted source text.label = spec)
      (hspecifier : list.parts = [specifier]) (hkind : specifier.label.rule = .exportSpecifier)
      (hname : specifier.filling? "name" = some name) (hdefault : name.text source = defaultName)
      (hrename : specifier.filling? "alias" = none)

/-! ### Elements -/

/-- The elements below an import clause that binds `x` to a default export. -/
inductive DefaultBinding (x : String) : List Lowered → Prop
  | plain (span : Span) : DefaultBinding x [leaf ⟨.identifier x, span⟩]
  | renamed (list specifier span span' : Span) (name name' : String) : DefaultBinding x
      [.node ⟨.namedImports, list⟩
        [.node ⟨.importSpecifier defaultName (some x), specifier⟩
          [leaf ⟨.identifier name, span⟩, leaf ⟨.identifier name', span'⟩]]]

/-- The element of an export of `x` as the default. -/
inductive DefaultEntry (x : String) : Lowered → Prop
  | assigned (statement span : Span) :
      DefaultEntry x (.node ⟨.exportAssignment, statement⟩ [leaf ⟨.identifier x, span⟩])
  | listed (statement list specifier span span' : Span) (name name' : String) : DefaultEntry x
      (.node ⟨.exportDeclaration, statement⟩
        [.node ⟨.namedExports, list⟩
          [.node ⟨.exportSpecifier x (some defaultName), specifier⟩
            [leaf ⟨.identifier name, span⟩, leaf ⟨.identifier name', span'⟩]]])

/-- The root of a module that only passes on the default export of the module `spec`. -/
inductive Forwarding (spec : String) : Lowered → Prop
  | imported {x : String} {binding : List Lowered} {entry : Lowered}
      (file statement clause span : Span) (hbinding : DefaultBinding x binding)
      (hentry : DefaultEntry x entry) : Forwarding spec
      (.node ⟨.sourceFile, file⟩
        [ .node ⟨.importDeclaration, statement⟩
            [.node ⟨.importClause, clause⟩ binding, leaf ⟨.stringLiteral spec, span⟩],
          entry ])
  | passedOn (file statement list specifier span span' : Span) (name : String) : Forwarding spec
      (.node ⟨.sourceFile, file⟩
        [ .node ⟨.exportDeclaration, statement⟩
            [ .node ⟨.namedExports, list⟩
                [ .node ⟨.exportSpecifier defaultName none, specifier⟩
                    [leaf ⟨.identifier name, span⟩] ],
              leaf ⟨.stringLiteral spec, span'⟩ ] ])

/-! ### From the spelling to the elements -/

theorem Source.unquote_of_forall {text : String} (h : ∀ c ∈ text.toList, Source.isQuote c = false) :
    Source.unquote text = text := by
  have hdrop : ∀ cs : List Char, (∀ c ∈ cs, Source.isQuote c = false) →
      cs.dropWhile Source.isQuote = cs := by
    intro cs hcs
    cases cs with
    | nil => rfl
    | cons c cs => rw [List.dropWhile_cons_of_neg (by simp [hcs c List.mem_cons_self])]
  rw [Source.unquote, hdrop _ h, hdrop _ fun c hc => h c (List.mem_reverse.mp hc),
    List.reverse_reverse, String.ofList_toList]

section Elements

variable {source x spec : String} {c : Concrete}

theorem unquoted_of_text (hquotes : ∀ ch ∈ x.toList, Source.isQuote ch = false)
    (h : c.text source = x) : unquoted source c.label = x := by
  rw [unquoted, ← Concrete.text, h, Source.unquote_of_forall hquotes]

theorem unquoted_default (h : c.text source = defaultName) :
    unquoted source c.label = defaultName :=
  unquoted_of_text (by simp [Source.isQuote, defaultName]) h

theorem ImportsDefault.lower (hquotes : ∀ ch ∈ x.toList, Source.isQuote ch = false)
    (h : ImportsDefault source x spec c) :
    ∃ binding statement clause span, DefaultBinding x binding ∧
      Lowering.lower source (.plain []) c =
        [.node ⟨.importDeclaration, statement⟩
          [.node ⟨.importClause, clause⟩ binding, leaf ⟨.stringLiteral spec, span⟩]] := by
  have hstring : Rule.string ≠ .importClause := by decide
  have hnotList : Rule.identifier ≠ .namedImports := by decide
  cases h with
  | plain hrule hparts hclause htext hspec hname hidentifier hx =>
      rename_i clause text name
      refine ⟨_, c.label.span, clause.label.span, text.label.span, .plain name.label.span, ?_⟩
      rw [lower_import hrule, hparts, List.flatMap_cons, List.flatMap_singleton, if_pos hclause,
        htext, if_neg hstring, lower_plain_string htext, lower_importClause, hname,
        List.flatMap_singleton, hidentifier, if_neg hnotList, lower_plain_identifier hidentifier,
        ← hspec, ← hx]
      rfl
  | renamed hrule hparts hclause htext hspec hlist hnamed hspecifier hkind hname hdefault hrename
      hx =>
      rename_i clause text list specifier name rename
      refine ⟨_, c.label.span, clause.label.span, text.label.span, .renamed list.label.span
        specifier.label.span name.label.span rename.label.span (name.text source)
        (rename.text source), ?_⟩
      rw [lower_import hrule, hparts, List.flatMap_cons, List.flatMap_singleton, if_pos hclause,
        htext, if_neg hstring, lower_plain_string htext, lower_importClause, hlist,
        List.flatMap_singleton, if_pos hnamed, lower_namedImports, hspecifier,
        List.flatMap_singleton, if_pos hkind, lower_specifier (fun _ _ => rfl) hname, hrename,
        Option.map_some, Option.map_some, unquoted_default hdefault, unquoted_of_text hquotes hx,
        ← hspec]
      rfl

theorem ExportsDefault.lower (hquotes : ∀ ch ∈ x.toList, Source.isQuote ch = false)
    (h : ExportsDefault source x c) :
    ∃ entry, DefaultEntry x entry ∧ Lowering.lower source (.plain []) c = [entry] := by
  have hnotClass : Rule.identifier ≠ .classLike := by decide
  cases h with
  | assigned hrule hdeclaration hvalue hidentifier hx =>
      rename_i value
      refine ⟨_, .assigned c.label.span value.label.span, ?_⟩
      rw [lower_exportValue hrule hdeclaration hvalue (hidentifier ▸ hnotClass),
        lower_plain_identifier hidentifier, ← hx]
      rfl
  | listed hrule hdeclaration hvalue hequals hlist hsource hspecifier hkind hname hx hrename
      hdefault =>
      rename_i list specifier name rename
      refine ⟨_, .listed c.label.span list.label.span specifier.label.span name.label.span
        rename.label.span (name.text source) (rename.text source), ?_⟩
      rw [lower_exportList hrule hdeclaration hvalue hequals hlist, hsource, lower_exportClause,
        hspecifier, List.flatMap_singleton, if_pos hkind, lower_specifier (fun _ _ => rfl) hname,
        hrename, Option.map_some, Option.map_some, unquoted_of_text hquotes hx,
        unquoted_default hdefault]
      rfl

/-- Every spelling leaves the elements of a module that passes on a default export. -/
theorem ForwardsDefault.forwarding (hquotes : ∀ ch ∈ x.toList, Source.isQuote ch = false)
    (h : ForwardsDefault source x spec c) : Forwarding spec (lowerRoot source c) := by
  cases h with
  | imported hparts himport hexport =>
      obtain ⟨binding, statement, clause, span, hbinding, hlower⟩ := himport.lower hquotes
      obtain ⟨entry, hentry, hlower'⟩ := hexport.lower hquotes
      rw [lowerRoot_eq, hparts, List.flatMap_cons, List.flatMap_singleton, hlower, hlower']
      exact .imported _ _ _ _ hbinding hentry
  | passedOn hparts hrule hdeclaration hvalue hequals hlist hsource hspec hspecifier hkind hname
      hdefault hrename =>
      rename_i c text list specifier name
      rw [lowerRoot_eq, hparts, List.flatMap_singleton,
        lower_exportList hrule hdeclaration hvalue hequals hlist, hsource, lower_exportClause,
        hspecifier, List.flatMap_singleton, if_pos hkind, lower_specifier (fun _ _ => rfl) hname,
        hrename, unquoted_default hdefault, ← hspec]
      exact .passedOn _ _ _ _ _ _ _

end Elements

/-! ### What such a module says -/

/-- A query for a name among the children of the only node of a kind. -/
theorem Node.query?_named_of_sole (x : String) {n c d : Node} {kind kind' : Kind}
    (hc : (Relation.candidates .descendant n).filter (QueryStep.descendant kind).admits = [c])
    (hd : c.children.filter (Node.is kind') = [d]) (hx : d.name? = some x) (name : String) :
    n.query? [.descendant kind, { QueryStep.child kind' with holds := Node.isNamed name }] =
      if x = name then some d else none := by
  have hfilter : c.children.filter
      ({ QueryStep.child kind' with holds := Node.isNamed name } : QueryStep).admits =
        [d].filter (Node.isNamed name) := by
    rw [← hd, List.filter_filter]
    exact List.filter_congr fun m _ => Bool.and_comm ..
  rw [Node.query?_cons]
  change (((Relation.candidates .descendant n).filter
    (QueryStep.descendant kind).admits).findSome? _) = _
  rw [hc, List.findSome?_singleton, Node.query?_child rfl, hfilter]
  by_cases hname : x = name <;> simp [Node.isNamed, hx, hname, Node.query?]

namespace Forwarding

variable {spec : String} {root : Lowered}

theorem importOrigin?_imported {x : String} {binding : List Lowered} {entry : Lowered}
    {file statement clause span : Span} (hbinding : DefaultBinding x binding)
    (hentry : DefaultEntry x entry) (name : String) :
    importOrigin? (.ofRoot (.node ⟨.sourceFile, file⟩
        [ .node ⟨.importDeclaration, statement⟩
            [.node ⟨.importClause, clause⟩ binding, leaf ⟨.stringLiteral spec, span⟩],
          entry ])) name =
      if x = name then some ⟨defaultName, spec⟩ else none := by
  rw [importOrigin?]
  cases hbinding with
  | plain place =>
      have hnamed : namedImport? (.ofRoot (.node ⟨.sourceFile, file⟩
          [ .node ⟨.importDeclaration, statement⟩
              [ .node ⟨.importClause, clause⟩ [leaf ⟨.identifier x, place⟩],
                leaf ⟨.stringLiteral spec, span⟩ ],
            entry ])) name = none := by
        cases hentry <;> rfl
      rw [hnamed]
      cases hentry <;>
      · rw [defaultImport?, Node.query?_named_of_sole x rfl rfl rfl]
        by_cases hx : x = name
        · rw [if_pos hx, if_pos hx]
          rfl
        · rw [if_neg hx, if_neg hx]
          rfl
  | renamed list specifier place place' text text' =>
      cases hentry <;>
      · rw [namedImport?, Node.query?_named_of_sole x rfl rfl rfl]
        by_cases hx : x = name
        · rw [if_pos hx, if_pos hx]
          rfl
        · rw [if_neg hx, if_neg hx]
          rfl

/-- The default export comes from the default export of the other module. -/
theorem forwarded?_eq (h : Forwarding spec root) :
    forwarded? (.ofRoot root) defaultName = some ⟨defaultName, spec⟩ := by
  rw [forwarded?, if_pos rfl]
  cases h with
  | passedOn => rfl
  | imported file statement clause span hbinding hentry =>
      rename_i x binding entry
      have hdefault : defaultExport? (.ofRoot (.node ⟨.sourceFile, file⟩
          [ .node ⟨.importDeclaration, statement⟩
              [.node ⟨.importClause, clause⟩ binding, leaf ⟨.stringLiteral spec, span⟩],
            entry ])) = some (.named x) := by
        cases hbinding <;> cases hentry <;> rfl
      rw [hdefault]
      simp only [importOrigin?_imported hbinding hentry, if_true]

theorem localPropType?_eq_none (h : Forwarding spec root) :
    localPropType? (.ofRoot root) = none := by
  cases h with
  | passedOn => rfl
  | imported file statement clause span hbinding hentry =>
      cases hbinding <;> cases hentry <;> rfl

theorem declaration?_eq_none (h : Forwarding spec root) (name : String) :
    declaration? (.ofRoot root) name = none := by
  cases h with
  | passedOn => rfl
  | imported file statement clause span hbinding hentry =>
      cases hbinding <;> cases hentry <;> rfl

/-- Nothing but a default export is imported. -/
theorem imported_eq (h : Forwarding spec root) {name : String} {origin : Origin}
    (horigin : importOrigin? (.ofRoot root) name = some origin) :
    origin.imported = defaultName := by
  cases h with
  | passedOn => cases horigin
  | imported file statement clause span hbinding hentry =>
      rw [importOrigin?_imported hbinding hentry] at horigin
      split_ifs at horigin
      rw [← Option.some.inj horigin]

end Forwarding

end PropSurface
