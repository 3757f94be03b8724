import PropSurface.Concrete.Sample
import PropSurface.Proofs.Element.Trimming
import PropSurface.Proofs.Session.Transparency

/-!
# Comments and class decorators cannot be seen

Sources from which comments and class decorators are taken away are read as the same modules.  So
nothing that is asked of a project tells whether they are there.

**Definitions.**
* `Environment.ReadsAs`: two environments whose files are read as the same modules.
* `Environment.TrimmedTo`: an environment and one whose sources have lost comments and class
  decorators.

**Results.**
* `Environment.ReadsAs.run_eq`: all calls are carried out alike.
* `Session.replies_trimmed`: a trimmed source is the same module, and sessions do not tell trimmed
  projects apart.
-/

namespace PropSurface

/-! ### Environments that are read alike -/

namespace Environment

/-- Two environments of the same files that every text is read in as the same module. -/
structure ReadsAs (env env' : Environment) : Prop where
  files : env'.files = env.files
  parse : ∀ (grammar : Grammar) (path : Path) (source : String),
    ParsedModule.parse path source (env'.concrete grammar source) =
      ParsedModule.parse path source (env.concrete grammar source)

namespace ReadsAs

variable {env env' : Environment}

/-- The files of environments that are read alike declare the same number of types. -/
theorem typeCount_eq (h : ReadsAs env env') : env'.typeCount.get = env.typeCount.get := by
  have hmodules : env'.files.readableModules env'.concrete =
      env.files.readableModules env.concrete := by
    simp only [FileSystem.readableModules, h.files, h.parse]
  rw [env'.typeCount_get, env.typeCount_get, hmodules]

theorem cacheLoad_eq (h : ReadsAs env env') (p : Path) (c : Cache) :
    c.load env' p = c.load env p := by
  have hadopt : ∀ requested resolved : Path,
      Cache.adopt env' requested resolved c = Cache.adopt env requested resolved c := by
    intro requested resolved
    simp only [Cache.adopt, h.files, h.parse]
  simp only [Cache.load, h.files, hadopt]

theorem load_eq (h : ReadsAs env env') (p : Path) : Resolve.load env' p = Resolve.load env p := by
  simp only [Resolve.load, h.cacheLoad_eq]

/-- Resolution takes the same steps, whatever their number. -/
theorem resolveWithin_eq (h : ReadsAs env env') (n : Nat) :
    resolveWithin env' n = resolveWithin env n := by
  have hlocate : locate env' = locate env := by
    funext m name
    simp only [locate, Resolve.loadImport, h.load_eq]
  induction n with
  | zero => rfl
  | succ n ih =>
      funext m name
      rw [resolveWithin, resolveWithin, hlocate, ih]

theorem resolveType_eq (h : ReadsAs env env') : resolveType env' = resolveType env := by
  funext m name
  simp only [resolveType, keyCount, h.typeCount_eq, h.resolveWithin_eq]

theorem findPropType_eq (h : ReadsAs env env') : findPropType env' = findPropType env := by
  funext m
  simp only [findPropType, forwardedPropType, Resolve.loadImport, h.load_eq]

theorem extractProps_eq (h : ReadsAs env env') : extractProps env' = extractProps env := by
  funext entry
  simp only [extractProps, h.load_eq, h.findPropType_eq, h.resolveType_eq]

/-- Every call is carried out alike, in every session. -/
theorem run_eq (h : ReadsAs env env') (call : Call) : call.run env' = call.run env := by
  funext s
  cases call with
  | load p => rw [Call.run, Call.run, h.load_eq]
  | extract entry => rw [Call.run, Call.run, h.extractProps_eq]
  | propType m => rw [Call.run, Call.run, h.findPropType_eq]
  | resolve m name => rw [Call.run, Call.run, h.resolveType_eq]

/-- All calls that are made one after the other are carried out alike. -/
theorem replies_eq (h : ReadsAs env env') (s : Session) (calls : List Call) :
    Session.replies env' s calls = Session.replies env s calls := by
  induction calls generalizing s with
  | nil => rfl
  | cons call calls ih => rw [Session.replies, Session.replies, h.run_eq, ih]

end ReadsAs

/-! ### Trimmed projects -/

/-- An environment, and another one of the same files in which comments and class decorators are
gone from the trees of some sources that can be read. -/
structure TrimmedTo (env env' : Environment) : Prop where
  files : env'.files = env.files
  concrete : ∀ (grammar : Grammar) (source : String),
    env'.concrete grammar source = env.concrete grammar source ∨
      (env.concrete grammar source).label.hasError = false ∧
        TrimmedRoot source (env.concrete grammar source) (env'.concrete grammar source)

/-- A trimmed source that can be read is the same module, and all others have not changed. -/
theorem TrimmedTo.readsAs {env env' : Environment} (h : TrimmedTo env env') :
    ReadsAs env env' where
  files := h.files
  parse grammar path source := by
    rcases h.concrete grammar source with hsame | ⟨hgood, htrimmed⟩
    · rw [hsame]
    · exact htrimmed.parse_eq hgood path

end Environment

/-- Comments and class decorators are invisible.  A source that can be read has the same elements,
and is the same module, when any of them are taken away from its tree; and in a project in which
this is done to any of the sources, every call of every session has the same reply.  The nodes that
can lose decorators are the classes: each of them becomes one class declaration, and every class
declaration of the source is what such a node has become. -/
theorem Session.replies_trimmed {source : String} {root root' : Concrete}
    (hgood : root.label.hasError = false) (hroot : TrimmedRoot source root root')
    {env env' : Environment} (henv : env.TrimmedTo env') (path : Path) (calls : List Call) :
    Lowering.lowerRoot source root' = Lowering.lowerRoot source root ∧
      (∃ m, ParsedModule.parse path source root = .ok m ∧
        ParsedModule.parse path source root' = .ok m) ∧
      replies env' .fresh calls = replies env .fresh calls ∧
      after env' calls = after env calls ∧
      (∀ (role : Role) (c : Concrete), role.isClass c.label = true →
        ∃ name below, Lowering.lower source role c =
          [.node ⟨.classDeclaration name, c.label.span⟩ below]) ∧
      ∀ x, Tree.Occurs x (Lowering.lowerRoot source root) →
        x.label.kind = .classDeclaration →
          ∃ d ∈ root.parts, ∃ role c, ReadIn source (.plain []) d role c ∧
            Lowering.lower source role c = [x] ∧ role.isClass c.label = true := by
  refine ⟨hroot.lowerRoot_eq, ?_, henv.readsAs.replies_eq .fresh calls, ?_,
    fun _ _ hclass => Lowering.lower_of_isClass hclass source,
    fun _ hx hkind => Lowering.exists_isClass hx hkind⟩
  · have hparse : ParsedModule.parse path source root =
        .ok ⟨path, source, Lowering.lowerRoot source root⟩ := by
      rw [ParsedModule.parse, hgood]
      rfl
    exact ⟨_, hparse, (hroot.parse_eq hgood path).trans hparse⟩
  · have hstep : (fun (s : Session) (call : Call) => (call.run env' s).2) =
        fun s call => (call.run env s).2 := by
      funext s call
      rw [henv.readsAs.run_eq]
    rw [after, after, hstep]

/-! ### A decorated class

A class with a decorator, a comment in front of it, and one among its type arguments. -/

namespace Decorated

open Sample (rule token)

def source : String := "/*c*/ @d class A extends B</*p*/ P> \x7b\x7d"

def comment (start : Nat) : Concrete := rule "comment" start (start + 5) [] []

def decorator : Concrete :=
  rule "decorator" 6 8 [] [token "@" 6 7, rule "identifier" 7 8 [] []]

def argument : Concrete := rule "type_identifier" 33 34 [] []

/-- The class, with some children in front and with the given type arguments. -/
def cls (front arguments : List Concrete) : Concrete :=
  rule "class_declaration" 6 38 []
    (front ++
      [ token "class" 9 14, rule "type_identifier" 15 16 ["name"] [],
        rule "class_heritage" 17 35 []
          [rule "extends_clause" 17 35 []
            [ token "extends" 17 24, rule "identifier" 25 26 ["value"] [],
              rule "type_arguments" 26 35 ["type_arguments"] arguments ]],
        rule "class_body" 36 38 ["body"] [token "\x7b" 36 37, token "\x7d" 37 38] ])

def root : Concrete :=
  rule "program" 0 38 []
    [ comment 0,
      cls [decorator] [token "<" 26 27, comment 27, argument, token ">" 34 35] ]

def trimmed : Concrete :=
  rule "program" 0 38 [] [cls [] [token "<" 26 27, argument, token ">" 34 35]]

/-- A project of one file, whatever its tree is. -/
def project (tree : Concrete) : Environment where
  files := ⟨[(["m.ts"], .file source.toUTF8)], ⟨"/"⟩⟩
  concrete := fun _ _ => tree

theorem trimmedRoot (source : String) : TrimmedRoot source root trimmed := by
  refine ⟨rfl, .drop (by decide) (.keep (.node (.drop (by decide) ?_)) .nil)⟩
  refine .keep (.refl source _ _) (.keep (.refl source _ _) (.keep (.node ?_) ?_))
  · -- The heritage, down to the type arguments.
    refine .keep (.node (.keep (.refl source _ _) (.keep (.refl source _ _) ?_))) .nil
    refine .keep (.node (.keep (.refl source _ _) (.drop ?_ (.refl source _ _ _)))) .nil
    exact Role.spares_of_isLooseComment (by decide) _ _
  · exact .refl source _ _ _

theorem trimmedTo : (project root).TrimmedTo (project trimmed) :=
  ⟨rfl, fun _ source => .inr ⟨rfl, trimmedRoot source⟩⟩

end Decorated

open Decorated in
theorem Session.replies_trimmed_decorated :
    Lowering.lowerRoot source trimmed = Lowering.lowerRoot source root ∧
      replies (project trimmed) .fresh [.load ⟨"/m.ts"⟩, .extract ⟨"/m.ts"⟩] =
        replies (project root) .fresh [.load ⟨"/m.ts"⟩, .extract ⟨"/m.ts"⟩] := by
  obtain ⟨hlower, -, hreplies, -⟩ := replies_trimmed (by rfl) (trimmedRoot source) trimmedTo
    ⟨"/m.ts"⟩ [.load ⟨"/m.ts"⟩, .extract ⟨"/m.ts"⟩]
  exact ⟨hlower, hreplies⟩

end PropSurface
