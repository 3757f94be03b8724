import Mathlib.Data.Set.Card
import PropSurface.Proofs.Resolution.Answers
import PropSurface.Proofs.Tree.Closure

/-!
# Depth of expansions

Expansions that are nested in one another belong to different keys, and all these keys are
declared in the files.  So their number is bounded by the number of declared types, and a
limit on the depth that exceeds this number is never felt.

**Definitions.**
* `Environment.typeKeys`: the keys of the types declared in the modules of an environment.
* `Covers`: a set of keys that resolution from a module does not leave.
* `Roomy`: a limit on the depth that leaves room for all keys that are not active yet.
* `Environment.props`: resolution from no active key, with a limit that is never felt.

**Results.**
* `Covers.of_meaning`: what a name means stays within a covering set.
* `expand_eq_of_roomy`: all roomy limits give the same result.
* `answers_resolveType`: resolution in any session with no active key comes to
  `Environment.props`.
-/

namespace PropSurface

/-! ### Declared types -/

theorem eq_of_site? {m : ParsedModule} {name : String} {site : Site}
    (h : m.site? name = some site) : site.module = m ∧ site.name = name := by
  obtain ⟨declaration, _, rfl⟩ := Option.map_eq_some_iff.mp h
  exact ⟨rfl, rfl⟩

/-- The name of a declaration is one of the types that its module declares. -/
theorem mem_declaredTypes_of_declaration? {m : ParsedModule} {name : String} {n : Node}
    (h : declaration? m.rootNode name = some n) : name ∈ m.declaredTypes := by
  rw [declaration?, Node.query?_cons] at h
  obtain ⟨n', hn', hfound⟩ := List.exists_of_findSome?_eq_some h
  obtain rfl : n' = n := Option.some.inj hfound
  obtain ⟨hcandidate, hadmits⟩ := List.mem_filter.mp hn'
  obtain ⟨e, he, rfl⟩ := List.mem_map.mp hcandidate
  simp only [QueryStep.admits, Option.all_none, Bool.true_and, Bool.and_eq_true] at hadmits
  obtain ⟨hdeclaration, hnamed⟩ := hadmits
  have hnode := Cursor.mem_cursors_of_mem_descendants (Tree.ofRoot_mem_cursors m.root) he
  exact List.mem_filterMap.mpr
    ⟨e.1, List.mem_filter.mpr ⟨hnode, hdeclaration⟩, of_decide_eq_true hnamed⟩

/-- The key of a declaration is one of the keys of its module. -/
theorem key_mem_typeKeys {m : ParsedModule} {name : String} {site : Site}
    (h : m.site? name = some site) : site.key ∈ m.typeKeys := by
  obtain ⟨declaration, hdeclaration, rfl⟩ := Option.map_eq_some_iff.mp h
  exact List.mem_map.mpr ⟨name, mem_declaredTypes_of_declaration? hdeclaration, rfl⟩

namespace Environment

variable {env : Environment}

/-- A module of the environment is among those that can be read from the files. -/
theorem Provides.mem_readableModules {m : ParsedModule} (h : env.Provides m) :
    m ∈ env.files.readableModules env.concrete := by
  obtain ⟨place, bytes, hfile, hpath, hread⟩ := h
  rw [hpath, read] at hread
  split at hread
  · cases hread
  · rename_i source hsource
    have htext := (hfile.of_readText?_pathOf hsource).1
    obtain ⟨s, above, rfl⟩ := hfile.exists_cons
    have hmem : (s :: above, Entry.file bytes) ∈ env.files.entries :=
      FileSystem.mem_entries_of_eq_some (List.cons_ne_nil s above) hfile.entry
    refine List.mem_filterMap.mpr ⟨_, hmem, ?_⟩
    simp [htext, hread, Except.toOption]

/-- The keys of the types that are declared in modules of the environment. -/
def typeKeys (env : Environment) : Set TypeKey :=
  {key | ∃ m, env.Loads m ∧ key ∈ m.typeKeys}

/-- The declared types of an environment are finitely many. -/
theorem finite_typeKeys (env : Environment) : env.typeKeys.Finite := by
  refine (List.finite_toSet
    ((env.files.readableModules env.concrete).flatMap ParsedModule.typeKeys)).subset ?_
  rintro key ⟨m, hm, hkey⟩
  exact List.mem_flatMap.mpr ⟨m, hm.provides.mem_readableModules, hkey⟩

theorem finite_typeKeys_union (env : Environment) (m : ParsedModule) :
    (env.typeKeys ∪ {key | key ∈ m.typeKeys}).Finite :=
  env.finite_typeKeys.union (List.finite_toSet _)

theorem typeKeys_subset_reachableKeys (env : Environment) (s : Session) (m : ParsedModule) :
    env.typeKeys ∪ {key | key ∈ m.typeKeys} ⊆ {key | key ∈ reachableKeys env s m} := by
  rintro key (⟨n, hn, hkey⟩ | hkey)
  · refine List.mem_flatMap.mpr ⟨n, ?_, hkey⟩
    exact List.mem_append_right _ hn.provides.mem_readableModules
  · exact List.mem_flatMap.mpr ⟨m, List.mem_append_left _ List.mem_cons_self, hkey⟩

/-- The number of types that a session counts is no smaller than that of the types there
are. -/
theorem ncard_typeKeys_le_keyCount (env : Environment) (s : Session) (m : ParsedModule) :
    (env.typeKeys ∪ {key | key ∈ m.typeKeys}).ncard ≤ keyCount env s m := by
  rw [← length_reachableKeys]
  calc (env.typeKeys ∪ {key | key ∈ m.typeKeys}).ncard
      ≤ ((reachableKeys env s m).toFinset : Set TypeKey).ncard := by
        refine Set.ncard_le_ncard ?_ (Finset.finite_toSet _)
        simpa using env.typeKeys_subset_reachableKeys s m
    _ = (reachableKeys env s m).toFinset.card := Set.ncard_coe_finset _
    _ ≤ (reachableKeys env s m).length := List.toFinset_card_le _

/-! ### What a name means -/

/-- The two ways in which a name has a meaning: declared in the module, or imported from a
module that declares it. -/
theorem meaning_eq_ok_iff {m : ParsedModule} {name : String} {site : Site} :
    env.meaning m name = .ok site ↔
      m.site? name = some site ∨
        m.site? name = none ∧ ∃ origin linked, m.typeOrigin? name = some origin ∧
          env.fetch (m.path.resolveSpecifier origin.source) = .ok linked ∧
          linked.site? origin.imported = some site := by
  unfold meaning
  cases m.site? name with
  | some own => simp
  | none =>
      cases m.typeOrigin? name with
      | none => simp
      | some origin =>
          cases hfetch : env.fetch (m.path.resolveSpecifier origin.source) with
          | error e => simp [hfetch, bind, Except.bind]
          | ok linked =>
              cases hsite : linked.site? origin.imported with
              | none => simp [hfetch, hsite, bind, Except.bind]
              | some found => simp [hfetch, hsite, bind, Except.bind]

/-- What a name means is declared in the module itself or in one of the environment. -/
theorem of_meaning {m : ParsedModule} {name : String} {site : Site}
    (h : env.meaning m name = .ok site) :
    (site.module = m ∨ env.Loads site.module) ∧ site.module.site? site.name = some site := by
  rcases meaning_eq_ok_iff.mp h with hsite | ⟨_, origin, linked, _, hfetch, hsite⟩
  · obtain ⟨hmodule, hname⟩ := eq_of_site? hsite
    exact ⟨Or.inl hmodule, by rw [hmodule, hname, hsite]⟩
  · obtain ⟨hmodule, hname⟩ := eq_of_site? hsite
    exact ⟨Or.inr ⟨_, hmodule ▸ hfetch⟩, by rw [hmodule, hname, hsite]⟩

end Environment

/-! ### Room for expansions -/

/-- A set of keys that resolution from a module does not leave: it has those of the module
and those of the environment. -/
structure Covers (env : Environment) (keys : Set TypeKey) (m : ParsedModule) : Prop where
  own : ∀ key ∈ m.typeKeys, key ∈ keys
  project : env.typeKeys ⊆ keys

namespace Covers

variable {env : Environment} {keys : Set TypeKey} {m : ParsedModule}

theorem of_loads (h : env.Loads m) : Covers env env.typeKeys m :=
  ⟨fun _ hkey => ⟨m, h, hkey⟩, subset_rfl⟩

theorem union (env : Environment) (m : ParsedModule) :
    Covers env (env.typeKeys ∪ {key | key ∈ m.typeKeys}) m :=
  ⟨fun _ hkey => Or.inr hkey, Set.subset_union_left⟩

/-- What a name means is covered, and so is the module it is declared in. -/
theorem of_meaning (h : Covers env keys m) {name : String} {site : Site}
    (hmeaning : env.meaning m name = .ok site) :
    site.key ∈ keys ∧ Covers env keys site.module := by
  obtain ⟨hmodule, hsite⟩ := Environment.of_meaning hmeaning
  have hcovers : Covers env keys site.module := by
    rcases hmodule with hmodule | hloads
    · rw [hmodule]
      exact h
    · exact ⟨fun key hkey => h.project ⟨_, hloads, hkey⟩, h.project⟩
  exact ⟨hcovers.own _ (key_mem_typeKeys hsite), hcovers⟩

end Covers

/-- Different keys of a set, and a limit on the depth that leaves room for the others. -/
structure Roomy (keys : Set TypeKey) (n : Nat) (active : List TypeKey) : Prop where
  nodup : active.Nodup
  subset : ∀ key ∈ active, key ∈ keys
  room : keys.ncard < n + active.length

namespace Roomy

variable {keys : Set TypeKey} {n : Nat} {active : List TypeKey} {key : TypeKey}

theorem start (h : keys.ncard < n) : Roomy keys n [] :=
  ⟨List.nodup_nil, fun _ hkey => absurd hkey List.not_mem_nil, h⟩

/-- No more keys are active than there are. -/
theorem length_le (h : Roomy keys n active) (hfinite : keys.Finite) :
    active.length ≤ keys.ncard := by
  calc active.length = active.toFinset.card := (List.toFinset_card_of_nodup h.nodup).symm
    _ = (active.toFinset : Set TypeKey).ncard := (Set.ncard_coe_finset _).symm
    _ ≤ keys.ncard := by
        refine Set.ncard_le_ncard ?_ hfinite
        intro key hkey
        exact h.subset key (by simpa using hkey)

/-- A roomy limit is not used up. -/
theorem exists_succ (h : Roomy keys n active) (hfinite : keys.Finite) : ∃ k, n = k + 1 := by
  have hlength := h.length_le hfinite
  have hroom := h.room
  exact ⟨n - 1, by omega⟩

theorem not_zero (hfinite : keys.Finite) : ¬ Roomy keys 0 active := by
  intro h
  obtain ⟨_, hsucc⟩ := h.exists_succ hfinite
  cases hsucc

/-- One more active key takes one from the limit. -/
theorem push (h : Roomy keys (n + 1) active) (hkey : key ∈ keys) (hfresh : key ∉ active) :
    Roomy keys n (key :: active) := by
  refine ⟨List.nodup_cons.mpr ⟨hfresh, h.nodup⟩, ?_, ?_⟩
  · intro k hk
    rcases List.mem_cons.mp hk with rfl | hk
    · exact hkey
    · exact h.subset k hk
  · have hroom := h.room
    rw [List.length_cons]
    omega

end Roomy

/-- Roomy limits are not felt: they all give the same result. -/
theorem expand_eq_of_roomy {env : Environment} {keys : Set TypeKey} (hfinite : keys.Finite) :
    ∀ {n k : Nat} {active : List TypeKey} {m : ParsedModule} (name : String),
      Covers env keys m → Roomy keys n active → Roomy keys k active →
      expand env n active m name = expand env k active m name := by
  intro n
  induction n with
  | zero =>
      intro k active m name _ hn _
      exact absurd hn (Roomy.not_zero hfinite)
  | succ n ih =>
      intro k active m name hcovers hn hk
      obtain ⟨k, rfl⟩ := hk.exists_succ hfinite
      rw [expand, expand]
      cases hmeaning : env.meaning m name with
      | error e => rfl
      | ok site =>
          obtain ⟨hkey, hsite⟩ := hcovers.of_meaning hmeaning
          by_cases hactive : site.key ∈ active
          · simp [bind, Except.bind, hactive]
          · have hbases : expand env n (site.key :: active) site.module =
                expand env k (site.key :: active) site.module :=
              funext fun base => ih base hsite (hn.push hkey hactive) (hk.push hkey hactive)
            simp only [bind, Except.bind, if_neg hactive, hbases]

/-- Property names of the type that a name means in a module, straight from the files. -/
def Environment.props (env : Environment) (m : ParsedModule) (name : String) :
    Except Failure (List String) :=
  expand env (keyCount env .fresh m + 1) [] m name

/-- Any limit above the number of types gives the property names. -/
theorem expand_eq_props {env : Environment} {m : ParsedModule} (name : String)
    {keys : Set TypeKey} (hfinite : keys.Finite) (hcovers : Covers env keys m) {n : Nat}
    (hn : keys.ncard < n) : expand env n [] m name = env.props m name := by
  have hcount := env.ncard_typeKeys_le_keyCount .fresh m
  have hunion := env.finite_typeKeys_union m
  calc expand env n [] m name
      = expand env (max n (keyCount env .fresh m + 1)) [] m name :=
        expand_eq_of_roomy hfinite name hcovers (Roomy.start hn) (Roomy.start (by omega))
    _ = env.props m name :=
        expand_eq_of_roomy hunion name (Covers.union env m) (Roomy.start (by omega))
          (Roomy.start (by omega))

/-- Resolution in a session with no active key comes to the property names, whatever the
session has loaded. -/
theorem answers_resolveType (env : Environment) (m : ParsedModule) (name : String) :
    Answers env [] (resolveType env m name) (env.props m name) := by
  intro s hactive hcache
  have hcount := env.ncard_typeKeys_le_keyCount s m
  have hprops : expand env (keyCount env s m + 1) [] m name = env.props m name :=
    expand_eq_props name (env.finite_typeKeys_union m) (Covers.union env m) (by omega)
  have hanswer : Answers env [] (resolveWithin env (keyCount env s m + 1) m name)
      (env.props m name) := hprops ▸ answers_resolveWithin (keyCount env s m + 1) [] m name
  exact hanswer s hactive hcache

end PropSurface
