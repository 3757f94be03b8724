import PropSurface.Cache
import PropSurface.Proofs.FileSystem.Canonical

/-!
# Faithful caches

A cache is faithful to an environment if it holds nothing but what the files say: every
stored module is the one that is read at its path, and every alias is the canonical path
of what it stands for.

**Results.**
* `faithful_empty`, `Faithful.load`: caches are faithful at the start and stay so.
* `Faithful.load_fst`: a faithful cache answers every request as the files alone would,
  whichever of its three ways it takes: by the stored path, by an alias, or by the canonical
  path.
-/

namespace PropSurface

/-- A path to a file comes before the other spellings of it. -/
theorem FileSystem.moduleFile?_of_isFile {fs : FileSystem} {p : Path} (h : fs.isFile p = true) :
    fs.moduleFile? p = some p := by
  have hfirst : p.append "" = p := by simp [Path.append]
  rw [moduleFile?, moduleSuffixes, List.map_cons, List.find?_cons, hfirst, h]

namespace Environment

/-- The module in the file at a canonical path. -/
def read (env : Environment) (resolved : Path) : Except Failure ParsedModule :=
  match env.files.readText? resolved with
  | none => .error (.unreadable resolved)
  | some source =>
      ParsedModule.parse resolved source (env.concrete (Grammar.ofPath resolved) source)

/-- The module that a path names, straight from the files. -/
def fetch (env : Environment) (p : Path) : Except Failure ParsedModule :=
  match env.files.moduleFile? p.normalize with
  | none => .error (.fileNotFound p.normalize)
  | some found => env.read ((env.files.canonicalize? found).getD found)

/-- Whether some path names a module. -/
def Loads (env : Environment) (m : ParsedModule) : Prop := ∃ p, env.fetch p = .ok m

/-- Whether a module is what a file of the environment holds. -/
def Provides (env : Environment) (m : ParsedModule) : Prop :=
  ∃ place bytes, env.files.FileAt place bytes ∧ m.path = FileSystem.pathOf place ∧
    env.read m.path = .ok m

variable {env : Environment} {m m' : ParsedModule}

/-- A module that is read has the path at which it is read. -/
theorem path_of_read {resolved : Path} (h : env.read resolved = .ok m) : m.path = resolved := by
  unfold read ParsedModule.parse at h
  split at h
  · cases h
  · split_ifs at h
    cases h
    rfl

/-- A request that finds a file leads to the canonical path of a file. -/
theorem exists_fileAt_of_moduleFile? {p found : Path}
    (h : env.files.moduleFile? p = some found) :
    ∃ place bytes, env.files.FileAt place bytes ∧
      env.files.canonicalize? found = some (FileSystem.pathOf place) :=
  FileSystem.exists_fileAt_of_isFile (List.find?_some h)

theorem Loads.provides (h : env.Loads m) : env.Provides m := by
  obtain ⟨p, hfetch⟩ := h
  unfold fetch at hfetch
  split at hfetch
  · cases hfetch
  · rename_i found hfound
    obtain ⟨place, bytes, hfile, hcanonical⟩ := exists_fileAt_of_moduleFile? hfound
    rw [hcanonical, Option.getD_some] at hfetch
    have hpath := path_of_read hfetch
    exact ⟨place, bytes, hfile, hpath, by rw [hpath, hfetch]⟩

theorem Provides.tidy (h : env.Provides m) : m.path.Tidy := by
  obtain ⟨place, bytes, hfile, hpath, _⟩ := h
  rw [hpath]
  exact hfile.direct.tidy_pathOf

/-- A module of the environment is known by the components of its path. -/
theorem Provides.eq_of_same (h : env.Provides m) (h' : env.Provides m')
    (hsame : m.path.same m'.path = true) : m = m' := by
  have hpath := h.tidy.eq_of_same h'.tidy hsame
  obtain ⟨_, _, _, _, hread⟩ := h
  obtain ⟨_, _, _, _, hread'⟩ := h'
  rw [hpath, hread'] at hread
  exact (Except.ok.inj hread).symm

/-- The path of a module leads to its file. -/
theorem Provides.isFile (h : env.Provides m) : env.files.isFile m.path = true := by
  obtain ⟨place, bytes, hfile, hpath, hread⟩ := h
  rw [hpath] at hread ⊢
  unfold read at hread
  split at hread
  · cases hread
  · rename_i source hsource
    exact (hfile.of_readText?_pathOf hsource).2

/-- A module of the environment is fetched by any request that normalizes to its path. -/
theorem Provides.fetch_eq (h : env.Provides m) {p : Path} (hp : p.normalize = m.path) :
    env.fetch p = .ok m := by
  have hfound := FileSystem.moduleFile?_of_isFile h.isFile
  obtain ⟨place, bytes, hfile, hpath, hread⟩ := h
  have hcanonical : env.files.canonicalize? m.path = some m.path := by
    rw [hpath]
    exact hfile.canonicalize?_pathOf
  simp only [fetch, hp, hfound, hcanonical, Option.getD_some, hread]

/-- A request whose file has the canonical path of a module of the environment fetches that
module. -/
theorem Provides.fetch_eq_of_canonicalize? (h : env.Provides m) {p found : Path}
    (hfound : env.files.moduleFile? p.normalize = some found)
    (hcanonical : env.files.canonicalize? found = some m.path) : env.fetch p = .ok m := by
  obtain ⟨_, _, _, _, hread⟩ := h
  simp only [fetch, hfound, hcanonical, Option.getD_some, hread]

end Environment

namespace Cache

/-! ### The ways of a request -/

section Ways

variable {env : Environment} {c : Cache} {p found : Path} {m : ParsedModule}

theorem load_of_known? (hknown : c.known? p.normalize = some m) :
    c.load env p = (.ok m, c) := by
  simp [load, hknown]

theorem load_of_moduleFile?_eq_none (hknown : c.known? p.normalize = none)
    (hfound : env.files.moduleFile? p.normalize = none) :
    c.load env p = (.error (.fileNotFound p.normalize), c) := by
  simp [load, hknown, hfound]

theorem load_of_get? {resolved : Path} (hknown : c.known? p.normalize = none)
    (hfound : env.files.moduleFile? p.normalize = some found)
    (hcanonical : env.files.canonicalize? found = some resolved)
    (hget : c.get? resolved = some m) :
    c.load env p = (.ok m, c.record p.normalize resolved) := by
  simp [load, hknown, hfound, hcanonical, hget]

theorem load_of_get?_eq_none {resolved : Path} (hknown : c.known? p.normalize = none)
    (hfound : env.files.moduleFile? p.normalize = some found)
    (hcanonical : env.files.canonicalize? found = some resolved)
    (hget : c.get? resolved = none) :
    c.load env p = adopt env p.normalize resolved c := by
  simp [load, hknown, hfound, hcanonical, hget]

end Ways

/-! ### Faithfulness -/

/-- A cache that holds nothing but what the files say. -/
structure Faithful (env : Environment) (c : Cache) : Prop where
  modules : ∀ m ∈ c.modules, env.Provides m
  aliases : ∀ a ∈ c.aliases, a.1.Tidy ∧ (∃ m ∈ c.modules, m.path = a.2) ∧
    ∃ found, env.files.moduleFile? a.1 = some found ∧
      env.files.canonicalize? found = some a.2

theorem faithful_empty (env : Environment) : Faithful env .empty :=
  ⟨fun _ h => absurd h List.not_mem_nil, fun _ h => absurd h List.not_mem_nil⟩

namespace Faithful

variable {env : Environment} {c : Cache}

/-- What is stored under a tidy path is the module of that path. -/
theorem of_get? (h : Faithful env c) {p : Path} {m : ParsedModule} (hp : p.Tidy)
    (hget : c.get? p = some m) : m.path = p ∧ env.Provides m := by
  have hm := h.modules m (List.mem_of_find?_eq_some hget)
  exact ⟨hm.tidy.eq_of_same hp (by simpa using List.find?_some hget), hm⟩

/-- What is known under a requested path is what the files have there. -/
theorem fetch_of_known? (h : Faithful env c) {p : Path} {m : ParsedModule}
    (hknown : c.known? p.normalize = some m) : env.fetch p = .ok m := by
  unfold known? at hknown
  cases halias : c.alias? p.normalize with
  | none =>
      rw [halias, Option.getD_none] at hknown
      obtain ⟨hpath, hm⟩ := h.of_get? (Path.tidy_normalize p) hknown
      exact hm.fetch_eq hpath.symm
  | some resolved =>
      rw [halias, Option.getD_some] at hknown
      obtain ⟨a, ha, rfl⟩ := Option.map_eq_some_iff.mp halias
      obtain ⟨htidy, ⟨n, hn, hnpath⟩, found, hfound, hcanonical⟩ :=
        h.aliases a (List.mem_of_find?_eq_some ha)
      have hrequest : a.1 = p.normalize :=
        htidy.eq_of_same (Path.tidy_normalize p) (by simpa using List.find?_some ha)
      have hresolved : a.2.Tidy := hnpath ▸ (h.modules n hn).tidy
      obtain ⟨hpath, hm⟩ := h.of_get? hresolved hknown
      rw [hrequest] at hfound
      exact hm.fetch_eq_of_canonicalize? hfound (hpath ▸ hcanonical)

theorem logParse (h : Faithful env c) (p : Path) : Faithful env (c.logParse p) :=
  ⟨h.modules, h.aliases⟩

/-- One more alias of a stored module keeps a cache faithful. -/
theorem record (h : Faithful env c) {requested resolved found : Path}
    (hrequested : requested.Tidy) (hstored : ∃ m ∈ c.modules, m.path = resolved)
    (hfound : env.files.moduleFile? requested = some found)
    (hcanonical : env.files.canonicalize? found = some resolved) :
    Faithful env (c.record requested resolved) := by
  refine ⟨h.modules, ?_⟩
  intro a ha
  rcases List.mem_cons.mp ha with rfl | ha
  · exact ⟨hrequested, hstored, found, hfound, hcanonical⟩
  · exact h.aliases a ha

/-- Storing a module of the environment under the request that led to it keeps a cache
faithful. -/
theorem store (h : Faithful env c) {requested found : Path} {m : ParsedModule}
    (hm : env.Provides m) (hrequested : requested.Tidy)
    (hfound : env.files.moduleFile? requested = some found)
    (hcanonical : env.files.canonicalize? found = some m.path) :
    Faithful env (c.store requested m) := by
  refine ⟨?_, ?_⟩
  · intro n hn
    rw [modules_store] at hn
    rcases List.mem_append.mp hn with hn | hn
    · exact h.modules n hn
    · rw [List.mem_singleton.mp hn]
      exact hm
  · intro a ha
    rw [modules_store]
    have hold : ∀ b ∈ c.aliases, b.1.Tidy ∧ (∃ n ∈ c.modules ++ [m], n.path = b.2) ∧
        ∃ found, env.files.moduleFile? b.1 = some found ∧
          env.files.canonicalize? found = some b.2 := by
      intro b hb
      obtain ⟨htidy, ⟨n, hn, hnpath⟩, hb⟩ := h.aliases b hb
      exact ⟨htidy, ⟨n, List.mem_append_left _ hn, hnpath⟩, hb⟩
    unfold Cache.store at ha
    split_ifs at ha
    · exact hold a ha
    · rcases List.mem_cons.mp ha with rfl | ha
      · exact ⟨hrequested, ⟨m, by simp, rfl⟩, found, hfound, hcanonical⟩
      · exact hold a ha

end Faithful

/-- What a cache adopts is what is read. -/
theorem adopt_fst (env : Environment) (requested resolved : Path) (c : Cache) :
    (adopt env requested resolved c).1 = env.read resolved := by
  unfold adopt Environment.read
  cases env.files.readText? resolved with
  | none => rfl
  | some source =>
      cases hparse : ParsedModule.parse resolved source
          (env.concrete (Grammar.ofPath resolved) source) with
      | error e => simp [hparse]
      | ok m => simp [hparse]

namespace Faithful

variable {env : Environment} {c : Cache}

theorem adopt (h : Faithful env c) {requested found : Path} {place : Place} {bytes : ByteArray}
    (hrequested : requested.Tidy) (hfound : env.files.moduleFile? requested = some found)
    (hfile : env.files.FileAt place bytes)
    (hcanonical : env.files.canonicalize? found = some (FileSystem.pathOf place)) :
    Faithful env (Cache.adopt env requested (FileSystem.pathOf place) c).2 := by
  have hfst := adopt_fst env requested (FileSystem.pathOf place) c
  unfold Cache.adopt at hfst ⊢
  cases hread : env.files.readText? (FileSystem.pathOf place) with
  | none => exact h
  | some source =>
      simp only [hread] at hfst ⊢
      cases hparse : ParsedModule.parse (FileSystem.pathOf place) source
          (env.concrete (Grammar.ofPath (FileSystem.pathOf place)) source) with
      | error e => exact h.logParse _
      | ok m =>
          rw [hparse] at hfst
          have hpath : m.path = FileSystem.pathOf place := Environment.path_of_read hfst.symm
          have hm : env.Provides m := ⟨place, bytes, hfile, hpath, by rw [hpath, ← hfst]⟩
          exact (h.logParse _).store hm hrequested hfound (hpath ▸ hcanonical)

/-- A faithful cache answers as the files do, and stays faithful. -/
theorem load_spec (h : Faithful env c) (p : Path) :
    (c.load env p).1 = env.fetch p ∧ Faithful env (c.load env p).2 := by
  cases hknown : c.known? p.normalize with
  | some m =>
      rw [load_of_known? hknown]
      exact ⟨(h.fetch_of_known? hknown).symm, h⟩
  | none =>
      cases hfound : env.files.moduleFile? p.normalize with
      | none =>
          rw [load_of_moduleFile?_eq_none hknown hfound]
          exact ⟨by simp [Environment.fetch, hfound], h⟩
      | some found =>
          obtain ⟨place, bytes, hfile, hcanonical⟩ :=
            Environment.exists_fileAt_of_moduleFile? hfound
          cases hget : c.get? (FileSystem.pathOf place) with
          | some m =>
              obtain ⟨hpath, hm⟩ := h.of_get? hfile.direct.tidy_pathOf hget
              have hstored : ∃ n ∈ c.modules, n.path = FileSystem.pathOf place :=
                ⟨m, List.mem_of_find?_eq_some hget, hpath⟩
              rw [load_of_get? hknown hfound hcanonical hget]
              exact ⟨(hm.fetch_eq_of_canonicalize? hfound (hpath ▸ hcanonical)).symm,
                h.record (Path.tidy_normalize p) hstored hfound hcanonical⟩
          | none =>
              rw [load_of_get?_eq_none hknown hfound hcanonical hget]
              refine ⟨?_, h.adopt (Path.tidy_normalize p) hfound hfile hcanonical⟩
              simp [adopt_fst, Environment.fetch, hfound, hcanonical]

theorem load_fst (h : Faithful env c) (p : Path) : (c.load env p).1 = env.fetch p :=
  (h.load_spec p).1

theorem load (h : Faithful env c) (p : Path) : Faithful env (c.load env p).2 :=
  (h.load_spec p).2

end Faithful

/-- A fresh cache goes by the files alone. -/
theorem load_empty_fst (env : Environment) (p : Path) :
    (Cache.empty.load env p).1 = env.fetch p :=
  (faithful_empty env).load_fst p

end Cache
end PropSurface
