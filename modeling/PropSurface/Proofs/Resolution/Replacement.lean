import PropSurface.Proofs.Session.Transparency

/-!
# Rewriting one file

What resolution says about a project depends on the types that its modules declare and import,
not on how these modules are written.  So a file can be rewritten without a change to any answer,
as long as its module keeps saying the same about types.

**Definitions.**
* `FileSystem.Rewritten`: two file systems that differ in what one file holds.
* `SameTypes`: two modules that declare the same types and import them from the same places.
* `SameSite`: two declarations that say the same.
* `Environment.Alike`: whatever is fetched has the same types in both.
* `Rewrites`: the file of a module is rewritten.

**Results.**
* `Environment.fetch_of_rewritten`: what is fetched is the same, but for the rewritten file.
* `expand_congr`, `props_congr`: resolution comes to the same in environments that are alike.
-/

namespace PropSurface

namespace FileSystem

/-- Two file systems that differ at most in what the file at one place holds. -/
structure Rewritten (fs fs' : FileSystem) (place : Place) : Prop where
  start : fs'.start = fs.start
  others : ∀ q, q ≠ place → fs'.entry? q = fs.entry? q
  before : ∃ bytes, fs.entry? place = some (.file bytes)
  after : ∃ bytes, fs'.entry? place = some (.file bytes)

/-- Another content for the first file of the table. -/
theorem rewritten_cons (start : Path) {place : Place} (hplace : place ≠ [])
    (bytes bytes' : ByteArray) (rest : List (Place × Entry)) :
    Rewritten ⟨(place, .file bytes) :: rest, start⟩ ⟨(place, .file bytes') :: rest, start⟩
      place where
  start := rfl
  others q hq := by
    have hother : (q == place) = false := beq_false_of_ne hq
    simp only [List.lookup_cons, hother, entry?]
  before := ⟨bytes, by rw [entry?_of_ne_nil hplace, List.lookup_cons_self]⟩
  after := ⟨bytes', by rw [entry?_of_ne_nil hplace, List.lookup_cons_self]⟩

namespace Rewritten

variable {fs fs' : FileSystem} {place : Place}

theorem entry?_cases (h : Rewritten fs fs' place) (q : Place) :
    fs'.entry? q = fs.entry? q ∨
      ∃ bytes bytes', fs.entry? q = some (.file bytes) ∧ fs'.entry? q = some (.file bytes') := by
  by_cases hq : q = place
  · obtain ⟨bytes, hbefore⟩ := h.before
    obtain ⟨bytes', hafter⟩ := h.after
    exact .inr ⟨bytes, bytes', hq ▸ hbefore, hq ▸ hafter⟩
  · exact .inl (h.others q hq)

theorem hasDirectory_eq (h : Rewritten fs fs' place) (q : Place) :
    fs'.hasDirectory q = fs.hasDirectory q := by
  unfold hasDirectory
  rcases h.entry?_cases q with heq | ⟨bytes, bytes', hbefore, hafter⟩
  · rw [heq]
  · rw [hbefore, hafter]

theorem walkWith_eq (h : Rewritten fs fs' place) (absent : Place → Option Place)
    (follow : Place → List String → Option Place) (segments : List String) (here : Place) :
    fs'.walkWith absent follow segments here = fs.walkWith absent follow segments here := by
  induction segments generalizing here with
  | nil => rfl
  | cons s rest ih =>
      rw [walkWith, walkWith, h.hasDirectory_eq, ih, ih]
      rcases h.entry?_cases (s :: here) with heq | ⟨bytes, bytes', hbefore, hafter⟩
      · simp only [heq, ih]
      · simp only [hbefore, hafter, ih]

theorem walk_eq (h : Rewritten fs fs' place) (absent : Place → Option Place) (links : Nat) :
    fs'.walk absent links = fs.walk absent links := by
  induction links with
  | zero => exact funext fun segments => funext fun here => h.walkWith_eq _ _ segments here
  | succ links ih =>
      refine funext fun segments => funext fun here => ?_
      rw [walk, walk, ih, h.walkWith_eq]

theorem follow?_eq (h : Rewritten fs fs' place) (p : Path) : fs'.follow? p = fs.follow? p := by
  rw [follow?, follow?, h.walk_eq, route, route, h.start]

theorem canonicalize?_eq (h : Rewritten fs fs' place) (p : Path) :
    fs'.canonicalize? p = fs.canonicalize? p := by
  rw [canonicalize?, canonicalize?, h.follow?_eq]

theorem resolve?_eq (h : Rewritten fs fs' place) (p : Path) : fs'.resolve? p = fs.resolve? p := by
  rw [resolve?, resolve?, h.follow?_eq]

theorem isFile_eq (h : Rewritten fs fs' place) (p : Path) : fs'.isFile p = fs.isFile p := by
  unfold isFile find?
  rw [h.resolve?_eq]
  cases fs.resolve? p with
  | none => rfl
  | some q =>
      simp only [Option.bind_some]
      rcases h.entry?_cases q with heq | ⟨bytes, bytes', hbefore, hafter⟩
      · rw [heq]
      · rw [hbefore, hafter]

theorem moduleFile?_eq (h : Rewritten fs fs' place) (p : Path) :
    fs'.moduleFile? p = fs.moduleFile? p := by
  unfold moduleFile?
  exact congrArg (List.find? · _) (funext h.isFile_eq)

theorem readText?_eq (h : Rewritten fs fs' place) {q : Place} {bytes : ByteArray}
    (hfile : fs.FileAt q bytes) (hq : q ≠ place) :
    fs'.readText? (pathOf q) = fs.readText? (pathOf q) := by
  have hfind : fs'.find? (pathOf q) = fs.find? (pathOf q) := by
    rw [find?, find?, h.resolve?_eq, resolve?, hfile.follow?_pathOf]
    split_ifs
    · rfl
    · exact h.others q hq
  rw [readText?, readText?, hfind]

end Rewritten

end FileSystem

/-! ### What is fetched -/

/-- What is fetched is the same, or it is what the rewritten file holds. -/
theorem Environment.fetch_of_rewritten {env env' : Environment} {place : Place}
    (hfiles : env.files.Rewritten env'.files place) (hconcrete : env'.concrete = env.concrete)
    (p : Path) :
    env'.fetch p = env.fetch p ∨
      env.fetch p = env.read (FileSystem.pathOf place) ∧
        env'.fetch p = env'.read (FileSystem.pathOf place) := by
  unfold Environment.fetch
  rw [hfiles.moduleFile?_eq]
  cases hfound : env.files.moduleFile? p.normalize with
  | none => exact .inl rfl
  | some found =>
      obtain ⟨q, bytes, hfile, hcanonical⟩ := exists_fileAt_of_moduleFile? hfound
      simp only [hfiles.canonicalize?_eq, hcanonical, Option.getD_some]
      by_cases hq : q = place
      · exact .inr (by rw [hq]; exact ⟨rfl, rfl⟩)
      · refine .inl ?_
        rw [Environment.read, Environment.read, hfiles.readText?_eq hfile hq, hconcrete]

/-- Two modules of one path that say the same about types: which ones they declare, and from where
they import others. -/
structure SameTypes (m m' : ParsedModule) : Prop where
  path : m'.path = m.path
  shape : ∀ name, (m'.site? name).map Site.shape = (m.site? name).map Site.shape
  origin : ∀ name, m'.typeOrigin? name = m.typeOrigin? name

theorem SameTypes.refl (m : ParsedModule) : SameTypes m m :=
  ⟨rfl, fun _ => rfl, fun _ => rfl⟩

/-- Two declarations of one name that say the same, in modules of the same types. -/
structure SameSite (site site' : Site) : Prop where
  module : SameTypes site.module site'.module
  name : site'.name = site.name
  shape : site'.shape = site.shape

theorem SameSite.key {site site' : Site} (h : SameSite site site') : site'.key = site.key := by
  rw [Site.key, Site.key, h.module.path, h.name]

/-- A name is declared in both modules or in neither one. -/
theorem SameTypes.site?_alike {m m' : ParsedModule} (h : SameTypes m m') (name : String) :
    (m.site? name = none ∧ m'.site? name = none) ∨
      ∃ site site', m.site? name = some site ∧ m'.site? name = some site' ∧
        SameSite site site' := by
  have hshape := h.shape name
  cases hsite : m.site? name with
  | none =>
      rw [hsite, Option.map_none, Option.map_eq_none_iff] at hshape
      exact .inl ⟨rfl, hshape⟩
  | some site =>
      rw [hsite, Option.map_some] at hshape
      obtain ⟨site', hsite', hsame⟩ := Option.map_eq_some_iff.mp hshape
      obtain ⟨hmodule, hname⟩ := eq_of_site? hsite
      obtain ⟨hmodule', hname'⟩ := eq_of_site? hsite'
      refine .inr ⟨site, site', rfl, hsite', ?_, hname'.trans hname.symm, hsame⟩
      rwa [hmodule, hmodule']

/-- Whatever is fetched says the same about types in both environments, or cannot be had in
either, for the same reason. -/
def Environment.Alike (env env' : Environment) : Prop :=
  ∀ p, (∃ e, env.fetch p = .error e ∧ env'.fetch p = .error e) ∨
    ∃ m m', env.fetch p = .ok m ∧ env'.fetch p = .ok m' ∧ SameTypes m m'

/-- A file whose module keeps saying the same about types can be rewritten. -/
theorem Environment.alike_of_rewritten {env env' : Environment} {place : Place}
    (hfiles : env.files.Rewritten env'.files place) (hconcrete : env'.concrete = env.concrete)
    {m m' : ParsedModule} (hm : env.read (FileSystem.pathOf place) = .ok m)
    (hm' : env'.read (FileSystem.pathOf place) = .ok m') (htypes : SameTypes m m') :
    env.Alike env' := by
  intro p
  rcases env.fetch_of_rewritten hfiles hconcrete p with heq | ⟨hold, hnew⟩
  · cases hfetch : env.fetch p with
    | error e => exact .inl ⟨e, rfl, heq.trans hfetch⟩
    | ok n => exact .inr ⟨n, n, rfl, heq.trans hfetch, .refl n⟩
  · exact .inr ⟨m, m', hold.trans hm, hnew.trans hm', htypes⟩

/-- The file of a module is rewritten, and holds another module then. -/
structure Rewrites (env env' : Environment) (m m' : ParsedModule) : Prop where
  files : ∃ place, m.path = FileSystem.pathOf place ∧ env.files.Rewritten env'.files place
  concrete : env'.concrete = env.concrete
  read : env'.read m.path = .ok m'

namespace Rewrites

variable {env env' : Environment} {m m' : ParsedModule}

theorem path_eq (h : Rewrites env env' m m') : m'.path = m.path :=
  Environment.path_of_read h.read

theorem alike (h : Rewrites env env' m m') (hread : env.read m.path = .ok m)
    (htypes : SameTypes m m') : env.Alike env' := by
  obtain ⟨place, hpath, hfiles⟩ := h.files
  have hread' := h.read
  rw [hpath] at hread hread'
  exact env.alike_of_rewritten hfiles h.concrete hread hread' htypes

/-- What is fetched is the same in both, or it is the module itself. -/
theorem fetch_cases (h : Rewrites env env' m m') (hread : env.read m.path = .ok m) (p : Path) :
    env'.fetch p = env.fetch p ∨ env.fetch p = .ok m ∧ env'.fetch p = .ok m' := by
  obtain ⟨place, hpath, hfiles⟩ := h.files
  rcases env.fetch_of_rewritten hfiles h.concrete p with heq | ⟨hold, hnew⟩
  · exact .inl heq
  · rw [← hpath] at hold hnew
    exact .inr ⟨hold.trans hread, hnew.trans h.read⟩

theorem fetch_eq (h : Rewrites env env' m m') (hread : env.read m.path = .ok m) {p : Path}
    (hfetch : env.fetch p = .ok m) : env'.fetch p = .ok m' := by
  rcases h.fetch_cases hread p with heq | ⟨_, hnew⟩
  · -- The file is read in both, so the module is the same.
    have hloads : env'.Loads m := ⟨p, heq.trans hfetch⟩
    obtain ⟨_, _, _, _, hsame⟩ := hloads.provides
    rw [heq, hfetch, ← hsame, h.read]
  · exact hnew

end Rewrites

/-! ### Resolution -/

section Resolution

variable {env env' : Environment}

/-- The declarations that a name means in modules of the same types say the same. -/
theorem meaning_alike (henv : env.Alike env') {m m' : ParsedModule} (hm : SameTypes m m')
    (name : String) :
    (∃ e, env.meaning m name = .error e ∧ env'.meaning m' name = .error e) ∨
      ∃ site site', env.meaning m name = .ok site ∧ env'.meaning m' name = .ok site' ∧
        SameSite site site' := by
  unfold Environment.meaning
  rcases hm.site?_alike name with ⟨hnone, hnone'⟩ | ⟨site, site', hsite, hsite', hsame⟩
  · rw [hnone, hnone', hm.origin name]
    cases m.typeOrigin? name with
    | none => exact .inl ⟨_, rfl, by rw [hm.path]⟩
    | some origin =>
        simp only [hm.path]
        rcases henv (m.path.resolveSpecifier origin.source) with
          ⟨e, hfetch, hfetch'⟩ | ⟨linked, linked', hfetch, hfetch', hlinked⟩
        · rw [hfetch, hfetch']
          exact .inl ⟨e, rfl, rfl⟩
        · rw [hfetch, hfetch']
          rcases hlinked.site?_alike origin.imported with
            ⟨hnone, hnone'⟩ | ⟨site, site', hsite, hsite', hsame⟩
          · simp only [bind, Except.bind, hnone, hnone']
            exact .inl ⟨_, rfl, rfl⟩
          · simp only [bind, Except.bind, hsite, hsite']
            exact .inr ⟨site, site', rfl, rfl, hsame⟩
  · rw [hsite, hsite']
    exact .inr ⟨site, site', rfl, rfl, hsame⟩

/-- Expansion comes to the same in environments that are alike. -/
theorem expand_congr (henv : env.Alike env') (n : Nat) :
    ∀ (active : List TypeKey) {m m' : ParsedModule} (_ : SameTypes m m') (name : String),
      expand env n active m name = expand env' n active m' name := by
  induction n with
  | zero =>
      intro active m m' hm name
      rw [expand, expand, hm.path]
  | succ n ih =>
      intro active m m' hm name
      rw [expand, expand]
      rcases meaning_alike henv hm name with
        ⟨e, hmeaning, hmeaning'⟩ | ⟨site, site', hmeaning, hmeaning', hsite⟩
      · simp only [hmeaning, hmeaning', bind, Except.bind]
      · have hbases : expand env' n (site.key :: active) site'.module =
            expand env n (site.key :: active) site.module :=
          funext fun base => (ih (site.key :: active) hsite.module base).symm
        rw [hmeaning, hmeaning']
        simp only [bind, Except.bind, hsite.key, hsite.module.path, hsite.name, hsite.shape, hbases]

/-- The property names of a type are the same in environments that are alike. -/
theorem props_congr (henv : env.Alike env') {m m' : ParsedModule} (hm : SameTypes m m')
    (name : String) : env.props m name = env'.props m' name := by
  -- One limit that exceeds the number of types of both.
  let keys := env.typeKeys ∪ {key | key ∈ m.typeKeys}
  let keys' := env'.typeKeys ∪ {key | key ∈ m'.typeKeys}
  have hlimit : keys.ncard < max keys.ncard keys'.ncard + 1 :=
    Nat.lt_succ_of_le (Nat.le_max_left ..)
  have hlimit' : keys'.ncard < max keys.ncard keys'.ncard + 1 :=
    Nat.lt_succ_of_le (Nat.le_max_right ..)
  rw [← expand_eq_props name (env.finite_typeKeys_union m) (Covers.union env m) hlimit,
    ← expand_eq_props name (env'.finite_typeKeys_union m') (Covers.union env' m') hlimit']
  exact expand_congr henv _ [] hm name

end Resolution

end PropSurface
