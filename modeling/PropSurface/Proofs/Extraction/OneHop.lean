import PropSurface.Concrete.Sample
import PropSurface.Proofs.Binding.Forwarding
import PropSurface.Proofs.Resolution.Replacement

/-!
# One hop

The props of a module that only passes on the default export of another one are those of the other
module, if that has a component of its own.  How the passing on is spelled makes no difference.

**Definitions.**
* `Session.extracted`: what extraction comes to after a history of calls.
* `Environment.Forwards`: a module that only passes on a default export.
* `PassesOn`: a module whose default export is bound by an import or an export list.

**Results.**
* `findPropType_of_forwarding`: the prop type is decided by one load and what is found there.
* `Forwarding.sameTypes`: all such modules of one path say the same about types.
* `Session.extracted_forwarding`: the outcome, in all cases and for all spellings.
-/

namespace PropSurface

open Lowering

/-- What extraction of the props of a module comes to after a history of calls. -/
def Session.extracted (env : Environment) (history : List Call) (entry : Path) :
    Except Failure (List String) :=
  ((extractProps env entry).run (after env history)).1

/-- A module of an environment that only passes on the default export of the module `spec`, under
the name `x` if it is imported first. -/
def Environment.Forwards (env : Environment) (m : ParsedModule) (x spec : String) : Prop :=
  ForwardsDefault m.source x spec (env.concrete (Grammar.ofPath m.path) m.source)

/-- The default export of a module is bound by an export list of another module, or to a name that
a named or default import binds. -/
def PassesOn (t : ParsedModule) : Prop :=
  (∃ origin, defaultExport? t.rootNode = some (.forwarded origin)) ∨
    ∃ name, defaultExport? t.rootNode = some (.named name) ∧
      (importOrigin? t.rootNode name).isSome

theorem isSome_forwarded?_iff {t : ParsedModule} :
    (forwarded? t.rootNode defaultName).isSome ↔ PassesOn t := by
  rw [forwarded?, if_pos rfl, PassesOn]
  cases hdefault : defaultExport? t.rootNode with
  | none => simp
  | some bound =>
      cases bound with
      | named name => simp
      | forwarded origin => simp

/-! ### One load -/

/-- What is decided once the other module is there. -/
def hopOutcome (m t : ParsedModule) : Except Failure (Option PropType) :=
  match localPropType? t.rootNode with
  | some name => .ok (some ⟨t, name⟩)
  | none =>
      if (forwarded? t.rootNode defaultName).isSome then .error (.unsupportedExportChain m.path)
      else .ok none

section Hop

variable {env : Environment} {m : ParsedModule} {spec : String}

/-- The prop type of a module that passes on a default export: the other module is loaded, and
nothing else is asked of the session. -/
theorem findPropType_of_forwarding (hm : Forwarding spec m.root) (hspec : isRelative spec = true) :
    findPropType env m =
      Resolve.loadImport env m spec >>= fun t => ExceptT.mk (pure (hopOutcome m t)) := by
  have horigin : (forwarded? m.rootNode defaultName).filter (isRelative ·.source) =
      some ⟨defaultName, spec⟩ := by
    rw [ParsedModule.rootNode, hm.forwarded?_eq]
    exact Option.filter_some_pos hspec
  rw [findPropType, ParsedModule.rootNode, hm.localPropType?_eq_none]
  simp only [forwardedPropType, horigin]
  refine congrArg _ (funext fun t => ?_)
  simp only [exportedPropType?, if_true, hopOutcome]
  cases localPropType? t.rootNode with
  | some name => rfl
  | none => by_cases h : (forwarded? t.rootNode defaultName).isSome = true <;> simp only [h] <;> rfl

theorem answers_findPropType (hm : Forwarding spec m.root) (hspec : isRelative spec = true)
    (active : List TypeKey) :
    Answers env active (findPropType env m)
      (env.fetch (m.path.resolveSpecifier spec) >>= hopOutcome m) := by
  rw [findPropType_of_forwarding hm hspec]
  exact (answers_load _).bind fun t _ s hactive hcache => ⟨rfl, hactive, hcache⟩

/-- At most one module is requested for the decision. -/
theorem run_findPropType (hm : Forwarding spec m.root) (hspec : isRelative spec = true)
    (s : Session) :
    ((findPropType env m).run s).2 =
      { s with cache := (s.cache.load env (m.path.resolveSpecifier spec)).2 } := by
  rw [findPropType_of_forwarding hm hspec]
  rcases hrun : (Resolve.loadImport env m spec).run s with ⟨e | t, s'⟩
  · rw [Resolve.run_bind_of_error hrun]
    exact congrArg Prod.snd hrun.symm
  · rw [Resolve.run_bind_of_ok hrun]
    exact congrArg Prod.snd hrun.symm

end Hop

/-! ### Extraction -/

section Extraction

variable {env : Environment} {p : Path} {m : ParsedModule}

/-- What follows from the prop type of a module. -/
def Environment.propsOf (env : Environment) (m : ParsedModule) :
    Option PropType → Except Failure (List String)
  | none => .error (.exportNotFound m.path)
  | some propType => env.props propType.module propType.name

/-- Extraction, from what is fetched and from the prop type of that. -/
theorem extracted_eq (hfetch : env.fetch p = .ok m) {r : Except Failure (Option PropType)}
    (hfound : Answers env [] (findPropType env m) r) (history : List Call) :
    Session.extracted env history p = r >>= env.propsOf m := by
  have hanswers : Answers env [] (extractProps env p)
      (env.fetch p >>= fun _ => r >>= env.propsOf m) := by
    unfold extractProps
    refine (answers_load p).bind fun m' hm' => ?_
    obtain rfl : m = m' := Except.ok.inj (hfetch.symm.trans hm')
    refine hfound.bind fun propType _ => ?_
    cases propType with
    | none => exact answers_throw _
    | some propType => exact answers_resolveType env propType.module propType.name
  have hidle := Session.idle_after env history
  rw [Session.extracted, (hanswers _ hidle.active hidle.cache).1, hfetch]
  rfl

/-- A module with a component of its own has the props of the prop type of that component. -/
theorem extracted_of_local (hfetch : env.fetch p = .ok m) {name : String}
    (hname : localPropType? m.rootNode = some name) (history : List Call) :
    Session.extracted env history p = env.props m name := by
  have hfound : Answers env [] (findPropType env m) (.ok (some ⟨m, name⟩)) := by
    rw [findPropType, hname]
    exact answers_pure _
  exact extracted_eq hfetch hfound history

theorem extracted_of_forwarding (hfetch : env.fetch p = .ok m) {spec : String}
    (hm : Forwarding spec m.root) (hspec : isRelative spec = true) (history : List Call) :
    Session.extracted env history p =
      (env.fetch (m.path.resolveSpecifier spec) >>= hopOutcome m) >>= env.propsOf m :=
  extracted_eq hfetch (answers_findPropType hm hspec []) history

end Extraction

/-! ### Independence of the spelling -/

theorem Environment.root_of_read {env : Environment} {q : Path} {m : ParsedModule}
    (h : env.read q = .ok m) :
    m.root = lowerRoot m.source (env.concrete (Grammar.ofPath m.path) m.source) := by
  unfold Environment.read ParsedModule.parse at h
  split at h
  · cases h
  · split_ifs at h
    cases h
    rfl

theorem Environment.Forwards.forwarding {env : Environment} {q : Path} {m : ParsedModule}
    {x spec : String} (h : env.Forwards m x spec)
    (hquotes : ∀ c ∈ x.toList, Source.isQuote c = false) (hread : env.read q = .ok m) :
    Forwarding spec m.root := by
  rw [root_of_read hread]
  exact ForwardsDefault.forwarding hquotes h

namespace Forwarding

variable {spec : String} {m m' : ParsedModule}

theorem site?_eq_none (h : Forwarding spec m.root) (name : String) : m.site? name = none := by
  rw [ParsedModule.site?, ParsedModule.rootNode, h.declaration?_eq_none]
  rfl

theorem typeOrigin?_eq_none (h : Forwarding spec m.root) (name : String) :
    m.typeOrigin? name = none := by
  rw [ParsedModule.typeOrigin?, Option.filter_eq_none_iff]
  intro origin horigin
  simp [h.imported_eq horigin]

/-- Modules that only pass on a default export declare no types and import none. -/
theorem sameTypes (h : Forwarding spec m.root) (h' : Forwarding spec m'.root)
    (hpath : m'.path = m.path) : SameTypes m m' where
  path := hpath
  shape name := by rw [h.site?_eq_none, h'.site?_eq_none]
  origin name := by rw [h.typeOrigin?_eq_none, h'.typeOrigin?_eq_none]

/-- A module that passes on a default export is one hop too many. -/
theorem hopOutcome_eq (h : Forwarding spec m.root) (n : ParsedModule) :
    hopOutcome n m = .error (.unsupportedExportChain n.path) := by
  rw [hopOutcome, ParsedModule.rootNode, h.localPropType?_eq_none, h.forwarded?_eq]
  rfl

end Forwarding

/-- The file of a module is rewritten, so that it holds a module that passes on the default export
of the module `spec`. -/
structure Respelled (env env' : Environment) (m m' : ParsedModule) (x spec : String) : Prop
    extends Rewrites env env' m m' where
  forwards : env'.Forwards m' x spec
  quotes : ∀ c ∈ x.toList, Source.isQuote c = false

namespace Respelled

variable {env env' : Environment} {m m' : ParsedModule} {x spec : String}

theorem forwarding (h : Respelled env env' m m' x spec) : Forwarding spec m'.root :=
  h.forwards.forwarding h.quotes h.read

/-- The outcome of the hop is the same before and after. -/
theorem hop_eq (h : Respelled env env' m m' x spec) (hread : env.read m.path = .ok m)
    (hm : Forwarding spec m.root) :
    ((env'.fetch (m.path.resolveSpecifier spec) >>= hopOutcome m') >>= env'.propsOf m') =
      ((env.fetch (m.path.resolveSpecifier spec) >>= hopOutcome m) >>= env.propsOf m) := by
  have hpath := h.path_eq
  have henv := h.alike hread (hm.sameTypes h.forwarding hpath)
  rcases h.fetch_cases hread (m.path.resolveSpecifier spec) with heq | ⟨hold, hnew⟩
  · rw [heq]
    cases env.fetch (m.path.resolveSpecifier spec) with
    | error e => rfl
    | ok t =>
        simp only [bind, Except.bind, hopOutcome, hpath]
        cases localPropType? t.rootNode with
        | some name => exact (props_congr henv (.refl t) name).symm
        | none =>
            by_cases hpasses : (forwarded? t.rootNode defaultName).isSome = true
            · simp only [hpasses, if_true]
            · simp only [hpasses, Environment.propsOf, hpath]
              rfl
  · -- The module passes on its own default export.
    rw [hold, hnew]
    simp only [bind, Except.bind, hm.hopOutcome_eq, h.forwarding.hopOutcome_eq, hpath]

end Respelled

namespace Session

/-- Extraction from a module that only passes on the default export of another one.  If the other
module cannot be had, this is the failure.  If it has a component of its own, the outcome is that of
extraction there.  Otherwise the chain is too long if its default export is bound by a named or
default import or by an export list of another module, and there is no export if not.  All is
decided once the other module was requested, and nothing else is.  The outcome is the same for
every spelling. -/
theorem extracted_forwarding (env : Environment) (history past : List Call) (p : Path)
    (m : ParsedModule) (x spec : String) (hfetch : env.fetch p = .ok m)
    (hforwards : env.Forwards m x spec) (hquotes : ∀ c ∈ x.toList, Source.isQuote c = false)
    (hspec : isRelative spec = true) :
    (∀ e, env.fetch (m.path.resolveSpecifier spec) = .error e →
      extracted env history p = .error e) ∧
    (∀ t, env.fetch (m.path.resolveSpecifier spec) = .ok t →
      ((localPropType? t.rootNode).isSome →
        extracted env history p = extracted env past (m.path.resolveSpecifier spec)) ∧
      (localPropType? t.rootNode = none → PassesOn t →
        extracted env history p = .error (.unsupportedExportChain m.path)) ∧
      (localPropType? t.rootNode = none → ¬ PassesOn t →
        extracted env history p = .error (.exportNotFound m.path))) ∧
    (∀ s : Session, ((findPropType env m).run s).2 =
      { s with cache := (s.cache.load env (m.path.resolveSpecifier spec)).2 }) ∧
    ∀ env' m' x', Respelled env env' m m' x' spec →
      extracted env' past p = extracted env history p := by
  obtain ⟨_, _, _, _, hread⟩ := Environment.Loads.provides ⟨p, hfetch⟩
  have hforwarding := hforwards.forwarding hquotes hread
  have houtcome := extracted_of_forwarding hfetch hforwarding hspec history
  refine ⟨fun e he => ?_, fun t ht => ⟨fun hsome => ?_, fun hnone hpasses => ?_,
    fun hnone hpasses => ?_⟩, run_findPropType hforwarding hspec, fun env' m' x' hspelled => ?_⟩
  · rw [houtcome, he]
    rfl
  · obtain ⟨name, hname⟩ := Option.isSome_iff_exists.mp hsome
    rw [houtcome, ht, extracted_of_local ht hname]
    simp only [bind, Except.bind, hopOutcome, hname, Environment.propsOf]
  · rw [houtcome, ht]
    simp only [bind, Except.bind, hopOutcome, hnone, isSome_forwarded?_iff.mpr hpasses, if_true]
  · have hstays : (forwarded? t.rootNode defaultName).isSome = false := by
      rw [Bool.eq_false_iff]
      exact fun h => hpasses (isSome_forwarded?_iff.mp h)
    rw [houtcome, ht]
    simp only [bind, Except.bind, hopOutcome, hnone, hstays, Bool.false_eq_true, if_false,
      Environment.propsOf]
  · rw [houtcome, extracted_of_forwarding (hspelled.fetch_eq hread hfetch) hspelled.forwarding
      hspec past, hspelled.path_eq]
    exact hspelled.hop_eq hread hforwarding

end Session

/-! ### A hop to a component

A module passes on the default export of another one, by a list and by an import. -/

namespace Hop

open Sample (rule token declaration member)

/-- A default export of the identifier in the last byte. -/
def assignment (start : Nat) : Concrete :=
  rule "export_statement" start (start + 16) []
    [ token "export" start (start + 6), token "default" (start + 7) (start + 14),
      rule "identifier" (start + 15) (start + 16) ["value"] [] ]

/-- A class with a prop type that is declared in the module. -/
def component : String := "class A extends C<P> {}\nexport default A\ninterface P { a }"

def componentTree : Concrete :=
  rule "program" 0 58 []
    [ rule "class_declaration" 0 23 []
        [ rule "type_identifier" 6 7 ["name"] [],
          rule "class_heritage" 8 20 []
            [ rule "extends_clause" 8 20 []
                [ rule "identifier" 16 17 ["value"] [],
                  rule "type_arguments" 17 20 ["type_arguments"]
                    [rule "type_identifier" 18 19 [] []] ] ],
          rule "class_body" 21 23 ["body"] [] ],
      assignment 24,
      declaration 41 58 [rule "interface_body" 53 58 ["body"] [member 55]] ]

def list : String := "export { default } from './t'"

def listTree : Concrete :=
  rule "program" 0 29 []
    [ rule "export_statement" 0 29 []
        [ token "export" 0 6,
          rule "export_clause" 7 18 []
            [rule "export_specifier" 9 16 [] [rule "identifier" 9 16 ["name"] []]],
          token "from" 19 23, rule "string" 24 29 ["source"] [] ] ]

def plain : String := "import X from './t'\nexport default X"

def plainTree : Concrete :=
  rule "program" 0 36 []
    [ rule "import_statement" 0 19 []
        [ token "import" 0 6, rule "import_clause" 7 8 [] [rule "identifier" 7 8 [] []],
          token "from" 9 13, rule "string" 14 19 ["source"] [] ],
      assignment 20 ]

/-- A module whose default export is a whole other module. -/
def whole : String := "import * as X from './u'\nexport default X"

def wholeTree : Concrete :=
  rule "program" 0 41 []
    [ rule "import_statement" 0 24 []
        [ token "import" 0 6,
          rule "import_clause" 7 13 []
            [ rule "namespace_import" 7 13 []
                [token "*" 7 8, token "as" 9 11, rule "identifier" 12 13 [] []] ],
          token "from" 14 18, rule "string" 19 24 ["source"] [] ],
      assignment 25 ]

/-- A project of two modules; the first one is in `m.ts` and leads to the second one. -/
def env (first second : String) : Environment where
  files := ⟨[(["m.ts"], .file first.toUTF8), (["t.ts"], .file second.toUTF8)], ⟨"/"⟩⟩
  concrete := fun _ source =>
    if source = component then componentTree
    else if source = list then listTree
    else if source = plain then plainTree
    else wholeTree

def entry : ParsedModule := ⟨⟨"/m.ts"⟩, list, lowerRoot list listTree⟩

theorem forwards_entry (second : String) : (env list second).Forwards entry "X" "./t" := by
  have htree : (env list second).concrete (Grammar.ofPath entry.path) entry.source = listTree := by
    rfl
  rw [Environment.Forwards, htree]
  exact .passedOn rfl rfl (by decide +kernel) (by decide +kernel) rfl rfl rfl (by decide +kernel)
    rfl rfl rfl (by decide +kernel) rfl

def entry' : ParsedModule := ⟨⟨"/m.ts"⟩, plain, lowerRoot plain plainTree⟩

theorem respelled_entry :
    Respelled (env list component) (env plain component) entry entry' "X" "./t" where
  files := ⟨["m.ts"], rfl, FileSystem.rewritten_cons ⟨"/"⟩ (List.cons_ne_nil _ _) _ _ _⟩
  concrete := rfl
  read := by rfl
  forwards := by
    have htree : (env plain component).concrete (Grammar.ofPath entry'.path) entry'.source =
        plainTree := by rfl
    rw [Environment.Forwards, htree]
    refine .imported rfl (.plain rfl rfl rfl rfl (by decide +kernel) rfl rfl (by decide +kernel))
      (.assigned rfl (by decide +kernel) rfl rfl (by decide +kernel))
  quotes := by simp [Source.isQuote]

end Hop

namespace Session

/-- A namespace import binds the default export of the other module, and yet the chain is not said
to be too long. -/
theorem extracted_forwarding_namespace :
    (Hop.env Hop.list Hop.whole).fetch ⟨"/m.ts"⟩ = .ok Hop.entry ∧
      (Hop.env Hop.list Hop.whole).Forwards Hop.entry "X" "./t" ∧
      (∃ t, (Hop.env Hop.list Hop.whole).fetch (Hop.entry.path.resolveSpecifier "./t") = .ok t ∧
        t.source = Hop.whole ∧ localPropType? t.rootNode = none ∧
        defaultExport? t.rootNode = some (.named "X")) ∧
      (∃ i ∈ Hop.wholeTree.parts, i.label.rule = .importStatement ∧
        ∃ k ∈ i.preorder, k.rule = .identifier ∧ Source.slice Hop.whole k.span = "X") ∧
      extracted (Hop.env Hop.list Hop.whole) [] ⟨"/m.ts"⟩ =
        .error (.exportNotFound Hop.entry.path) := by
  refine ⟨by rfl, Hop.forwards_entry Hop.whole, ⟨_, by rfl, rfl, by decide +kernel,
    by decide +kernel⟩, by decide +kernel, by decide +kernel⟩

theorem extracted_forwarding_component :
    (Hop.env Hop.list Hop.component).fetch ⟨"/m.ts"⟩ = .ok Hop.entry ∧
      (Hop.env Hop.list Hop.component).Forwards Hop.entry "X" "./t" ∧
      extracted (Hop.env Hop.list Hop.component) [] ⟨"/m.ts"⟩ = .ok ["a"] ∧
      extracted (Hop.env Hop.plain Hop.component) [] ⟨"/m.ts"⟩ = .ok ["a"] := by
  have hforwards := Hop.forwards_entry Hop.component
  have hfetch : (Hop.env Hop.list Hop.component).fetch ⟨"/m.ts"⟩ = .ok Hop.entry := by rfl
  obtain ⟨_, htarget, _, hspelled⟩ := extracted_forwarding (Hop.env Hop.list Hop.component) [] []
    ⟨"/m.ts"⟩ Hop.entry "X" "./t" hfetch hforwards (by simp [Source.isQuote]) (by decide +kernel)
  have hother : extracted (Hop.env Hop.list Hop.component) []
      (Hop.entry.path.resolveSpecifier "./t") = .ok ["a"] := by decide +kernel
  have hprops : extracted (Hop.env Hop.list Hop.component) [] ⟨"/m.ts"⟩ = .ok ["a"] :=
    ((htarget _ (by rfl)).1 (by decide +kernel)).trans hother
  exact ⟨hfetch, hforwards, hprops, (hspelled _ _ _ Hop.respelled_entry).trans hprops⟩

end Session

end PropSurface
