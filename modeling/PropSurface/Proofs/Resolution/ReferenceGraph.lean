import Mathlib.Logic.Relation
import PropSurface.Proofs.Session.Transparency

/-!
# The reference graph

The types that are declared in the files and the bases that their declarations name make up
a graph.  Its nodes are pairs of a module and a name, and it has nothing to do with sessions
or with an order in which types are expanded.

**Definitions.**
* `Denotes`: the declaration that a name stands for in a module.
* `Refers`: the edges, from a declaration to each of its bases.
* `Complete`: all bases of a declaration stand for something.
* `Settled`: whatever can be reached is complete and lies on no cycle.

**Results.**
* `settled_of_expand`, `exists_expand_of_settled`: an expansion succeeds exactly where the
  graph is settled, if no active key can be reached.
* `cycle_of_expand`: a cycle that is reported is one of the graph.
* `Session.resolved_exact`: both for resolution in a session, whatever was asked before.
-/

namespace PropSurface

/-! ### Inversion of expansions -/

section Traversal

variable {ε α β : Type} {f : α → Except ε β}

/-- A traversal succeeds if every element does, with the results in order. -/
theorem mapM_eq_ok_iff :
    ∀ {as : List α} {bs : List β},
      as.mapM f = .ok bs ↔ List.Forall₂ (fun a b => f a = .ok b) as bs
  | [], bs => by
      cases bs with
      | nil => simp [pure, Except.pure]
      | cons b bs => simp [pure, Except.pure]
  | a :: as, bs => by
      rw [List.mapM_cons, List.forall₂_cons_left_iff]
      constructor
      · intro h
        cases ha : f a with
        | error e =>
            rw [ha] at h
            cases h
        | ok b =>
            cases has : as.mapM f with
            | error e =>
                rw [ha, has] at h
                cases h
            | ok rest =>
                rw [ha, has] at h
                cases h
                exact ⟨b, rest, rfl, mapM_eq_ok_iff.mp has, rfl⟩
      · rintro ⟨b, rest, ha, hrest, rfl⟩
        rw [ha, mapM_eq_ok_iff.mpr hrest]
        rfl

/-- Every element has a result exactly if the list has results. -/
theorem exists_forall₂_iff {R : α → β → Prop} {as : List α} :
    (∃ bs, List.Forall₂ R as bs) ↔ ∀ a ∈ as, ∃ b, R a b := by
  induction as with
  | nil => simp
  | cons a as ih =>
      rw [List.forall_mem_cons, ← ih]
      constructor
      · rintro ⟨_, hrelated⟩
        cases hrelated with
        | cons hhead htail => exact ⟨⟨_, hhead⟩, _, htail⟩
      · rintro ⟨⟨b, hhead⟩, bs, htail⟩
        exact ⟨b :: bs, .cons hhead htail⟩

/-- A traversal fails as one of the elements does. -/
theorem exists_of_mapM_eq_error {e : ε} :
    ∀ {as : List α}, as.mapM f = .error e → ∃ a ∈ as, f a = .error e
  | [], h => by cases h
  | a :: as, h => by
      rw [List.mapM_cons] at h
      cases ha : f a with
      | error e' =>
          rw [ha] at h
          cases h
          exact ⟨a, List.mem_cons_self, ha⟩
      | ok b =>
          cases has : as.mapM f with
          | error e' =>
              rw [ha, has] at h
              cases h
              obtain ⟨a', hmem, ha'⟩ := exists_of_mapM_eq_error has
              exact ⟨a', List.mem_cons_of_mem a hmem, ha'⟩
          | ok rest =>
              rw [ha, has] at h
              cases h

end Traversal

section Inversion

variable {env : Environment} {n : Nat} {active : List TypeKey} {m : ParsedModule} {name : String}

/-- How an expansion succeeds. -/
theorem expand_succ_eq_ok_iff {props : List String} :
    expand env (n + 1) active m name = .ok props ↔
      ∃ site inherited, env.meaning m name = .ok site ∧ site.key ∉ active ∧
        List.Forall₂ (fun base p => expand env n (site.key :: active) site.module base = .ok p)
          site.shape.bases inherited ∧
        props = inherited.flatten ++ site.shape.own := by
  rw [expand]
  cases hmeaning : env.meaning m name with
  | error e => simp [bind, Except.bind]
  | ok site =>
      by_cases hactive : site.key ∈ active
      · simp [bind, Except.bind, hactive]
      · simp only [← mapM_eq_ok_iff]
        cases hbases : site.shape.bases.mapM (expand env n (site.key :: active) site.module) with
        | error e => simp [bind, Except.bind, hactive, hbases]
        | ok inherited =>
            simp [bind, Except.bind, pure, Except.pure, hactive, hbases, eq_comm]

/-- The ways in which an expansion fails: the name means nothing, it means an active
declaration, or a base fails. -/
theorem expand_succ_eq_error {e : Failure} (h : expand env (n + 1) active m name = .error e) :
    env.meaning m name = .error e ∨
      ∃ site, env.meaning m name = .ok site ∧
        (site.key ∈ active ∧ e = .cyclicReference site.module.path site.name ∨
          site.key ∉ active ∧ ∃ base ∈ site.shape.bases,
            expand env n (site.key :: active) site.module base = .error e) := by
  rw [expand] at h
  cases hmeaning : env.meaning m name with
  | error e' =>
      rw [hmeaning] at h
      cases h
      exact Or.inl rfl
  | ok site =>
      refine Or.inr ⟨site, rfl, ?_⟩
      rw [hmeaning] at h
      by_cases hactive : site.key ∈ active
      · simp only [bind, Except.bind, if_pos hactive] at h
        cases h
        exact Or.inl ⟨hactive, rfl⟩
      · refine Or.inr ⟨hactive, ?_⟩
        cases hbases : site.shape.bases.mapM (expand env n (site.key :: active) site.module) with
        | error e' =>
            simp only [bind, Except.bind, if_neg hactive, hbases] at h
            cases h
            exact exists_of_mapM_eq_error hbases
        | ok inherited =>
            simp only [bind, Except.bind, if_neg hactive, hbases] at h
            cases h

end Inversion

/-! ### Nodes and edges -/

/-- `Denotes env m name site`: in the module `m`, the name stands for the declaration `site`.
A declaration of the module itself comes first; otherwise it is the one that a named import
takes from a module of the project, under the name that it has there. -/
inductive Denotes (env : Environment) (m : ParsedModule) (name : String) : Site → Prop
  | declared {site : Site} : m.site? name = some site → Denotes env m name site
  | imported {origin : Origin} {linked : ParsedModule} {site : Site} :
      m.site? name = none → importOrigin? m.rootNode name = some origin →
      origin.imported ≠ defaultName → isRelative origin.source = true →
      env.fetch (m.path.resolveSpecifier origin.source) = .ok linked →
      linked.site? origin.imported = some site → Denotes env m name site

/-- A declaration in a module of the environment. -/
structure Declared (env : Environment) (site : Site) : Prop where
  loads : env.Loads site.module
  found : site.module.site? site.name = some site

/-- The edges of the graph: from a declared type to each type that one of its bases stands
for. -/
def Refers (env : Environment) (k l : TypeKey) : Prop :=
  ∃ site base target, Declared env site ∧ base ∈ site.shape.bases ∧
    Denotes env site.module base target ∧ site.key = k ∧ target.key = l

/-- Whether a type can be reached from another one, or is the same. -/
def Reaches (env : Environment) : TypeKey → TypeKey → Prop :=
  Relation.ReflTransGen (Refers env)

/-- Whether a type is reached from itself by one edge or more. -/
def OnCycle (env : Environment) (k : TypeKey) : Prop :=
  Relation.TransGen (Refers env) k k

/-- Whether every base of a type stands for something. -/
def Complete (env : Environment) (k : TypeKey) : Prop :=
  ∀ site, Declared env site → site.key = k →
    ∀ base ∈ site.shape.bases, ∃ target, Denotes env site.module base target

/-- Whether all that can be reached from a type is complete and on no cycle. -/
def Settled (env : Environment) (k : TypeKey) : Prop :=
  ∀ l, Reaches env k l → Complete env l ∧ ¬ OnCycle env l

section Graph

variable {env : Environment} {m : ParsedModule} {name : String} {site target : Site}
  {k l : TypeKey}

/-- What a name stands for is what it is looked up to be. -/
theorem denotes_iff : Denotes env m name site ↔ env.meaning m name = .ok site := by
  rw [Environment.meaning_eq_ok_iff]
  constructor
  · intro h
    cases h with
    | declared hsite => exact Or.inl hsite
    | imported hnone horigin hname hsource hfetch hsite =>
        refine Or.inr ⟨hnone, _, _, ?_, hfetch, hsite⟩
        refine Option.filter_eq_some_iff.mpr ⟨horigin, ?_⟩
        simp [hname, hsource]
  · rintro (hsite | ⟨hnone, origin, linked, horigin, hfetch, hsite⟩)
    · exact .declared hsite
    · obtain ⟨horigin, hnamed⟩ := Option.filter_eq_some_iff.mp horigin
      simp only [Bool.and_eq_true, bne_iff_ne] at hnamed
      exact .imported hnone horigin hnamed.1 hnamed.2 hfetch hsite

theorem Denotes.unique (h : Denotes env m name site) (h' : Denotes env m name target) :
    site = target :=
  Except.ok.inj ((denotes_iff.mp h).symm.trans (denotes_iff.mp h'))

/-- What a name of a module of the environment stands for is declared there. -/
theorem Denotes.isDeclared (h : Denotes env m name site) (hm : env.Loads m) :
    Declared env site := by
  obtain ⟨hmodule, hfound⟩ := Environment.of_meaning (denotes_iff.mp h)
  rcases hmodule with hmodule | hloads
  · exact ⟨hmodule ▸ hm, hfound⟩
  · exact ⟨hloads, hfound⟩

/-- A declared type is known by its module and its name. -/
theorem Declared.eq_of_key_eq (h : Declared env site) (h' : Declared env target)
    (hkey : site.key = target.key) : site = target := by
  obtain ⟨hcomponents, hname⟩ := TypeKey.mk.inj hkey
  have hmodule : site.module = target.module :=
    h.loads.provides.eq_of_same h'.loads.provides (Path.same_iff.mpr hcomponents)
  have hfound := h.found
  rw [hmodule, hname, h'.found] at hfound
  exact (Option.some.inj hfound).symm

/-- The edges that leave a declared type. -/
theorem Declared.refers_iff (h : Declared env site) :
    Refers env site.key l ↔
      ∃ base ∈ site.shape.bases, ∃ target, Denotes env site.module base target ∧
        target.key = l := by
  constructor
  · rintro ⟨site', base, target, hsite', hbase, hdenotes, hkey, htarget⟩
    obtain rfl := hsite'.eq_of_key_eq h hkey
    exact ⟨base, hbase, target, hdenotes, htarget⟩
  · rintro ⟨base, hbase, target, hdenotes, htarget⟩
    exact ⟨site, base, target, h, hbase, hdenotes, rfl, htarget⟩

theorem Declared.complete_iff (h : Declared env site) :
    Complete env site.key ↔
      ∀ base ∈ site.shape.bases, ∃ target, Denotes env site.module base target := by
  constructor
  · exact fun hcomplete => hcomplete site h rfl
  · intro hbases site' hsite' hkey
    obtain rfl := hsite'.eq_of_key_eq h hkey
    exact hbases

theorem Settled.of_refers (h : Settled env k) (hrefers : Refers env k l) : Settled env l :=
  fun l' hl' => h l' (Relation.ReflTransGen.head hrefers hl')

/-- A type is settled if its bases are.  A cycle through it would be one of the types it
refers to as well. -/
theorem settled_of_successors (hcomplete : Complete env k)
    (hsettled : ∀ l, Refers env k l → Settled env l) : Settled env k := by
  intro l hl
  rcases Relation.ReflTransGen.cases_head hl with rfl | ⟨l', hedge, hl'⟩
  · refine ⟨hcomplete, fun hcycle => ?_⟩
    obtain ⟨l, hedge, hback⟩ := Relation.TransGen.head'_iff.mp hcycle
    exact (hsettled l hedge k hback).2 hcycle
  · exact hsettled l' hedge l hl'

/-- A declared type is settled if each of its bases stands for a settled type. -/
theorem Declared.settled (h : Declared env site)
    (hbases : ∀ base ∈ site.shape.bases,
      ∃ target, Denotes env site.module base target ∧ Settled env target.key) :
    Settled env site.key := by
  refine settled_of_successors ?_ ?_
  · refine h.complete_iff.mpr fun base hbase => ?_
    obtain ⟨target, htarget, _⟩ := hbases base hbase
    exact ⟨target, htarget⟩
  · intro l hl
    obtain ⟨base, hbase, target, htarget, rfl⟩ := h.refers_iff.mp hl
    obtain ⟨target', htarget', hsettled⟩ := hbases base hbase
    rw [htarget.unique htarget']
    exact hsettled

end Graph

/-! ### Expansions and the graph -/

section Expansion

variable {env : Environment} {keys : Set TypeKey}

/-- A name that can be expanded stands for a settled type. -/
theorem settled_of_expand :
    ∀ {n : Nat} {active : List TypeKey} {m : ParsedModule} {name : String} {props : List String},
      env.Loads m → expand env n active m name = .ok props →
      ∃ start, Denotes env m name start ∧ Settled env start.key := by
  intro n
  induction n with
  | zero =>
      intro active m name props _ h
      cases h
  | succ n ih =>
      intro active m name props hm h
      obtain ⟨site, inherited, hmeaning, _, hbases, _⟩ := expand_succ_eq_ok_iff.mp h
      have hdenotes : Denotes env m name site := denotes_iff.mpr hmeaning
      have hsite := hdenotes.isDeclared hm
      refine ⟨site, hdenotes, hsite.settled fun base hbase => ?_⟩
      obtain ⟨p, hp⟩ := exists_forall₂_iff.mp ⟨inherited, hbases⟩ base hbase
      exact ih hsite.loads hp

/-- A name that stands for a settled type can be expanded, if the limit leaves room and no
active key can be reached.  The step makes the type itself active; as it is on no cycle, it
cannot be reached from its bases. -/
theorem exists_expand_of_settled (hfinite : keys.Finite) :
    ∀ {n : Nat} {active : List TypeKey} {m : ParsedModule} {name : String} {start : Site},
      env.Loads m → Covers env keys m → Roomy keys n active →
      Denotes env m name start → Settled env start.key →
      (∀ k ∈ active, ¬ Reaches env start.key k) →
      ∃ props, expand env n active m name = .ok props := by
  intro n
  induction n with
  | zero =>
      intro active m name start _ _ hroomy _ _ _
      exact absurd hroomy (Roomy.not_zero hfinite)
  | succ n ih =>
      intro active m name start hm hcovers hroomy hdenotes hsettled hactive
      have hstart := hdenotes.isDeclared hm
      have hmeaning := denotes_iff.mp hdenotes
      obtain ⟨hkey, hcovers'⟩ := hcovers.of_meaning hmeaning
      have hfresh : start.key ∉ active := fun hmem => hactive _ hmem Relation.ReflTransGen.refl
      obtain ⟨hcomplete, hcycle⟩ := hsettled start.key Relation.ReflTransGen.refl
      have hbases : ∀ base ∈ start.shape.bases,
          ∃ p, expand env n (start.key :: active) start.module base = .ok p := by
        intro base hbase
        obtain ⟨target, htarget⟩ := hstart.complete_iff.mp hcomplete base hbase
        have hedge : Refers env start.key target.key :=
          hstart.refers_iff.mpr ⟨base, hbase, target, htarget, rfl⟩
        refine ih hstart.loads hcovers' (hroomy.push hkey hfresh) htarget
          (hsettled.of_refers hedge) ?_
        -- A way from the base back to an active type would close a cycle or be one from `start`.
        intro k hk hreaches
        rcases List.mem_cons.mp hk with rfl | hk
        · exact hcycle (Relation.TransGen.head' hedge hreaches)
        · exact hactive k hk (Relation.ReflTransGen.head hedge hreaches)
      obtain ⟨inherited, hinherited⟩ := exists_forall₂_iff.mpr hbases
      exact ⟨_, expand_succ_eq_ok_iff.mpr ⟨start, inherited, hmeaning, hfresh, hinherited, rfl⟩⟩

/-- Loading never reports a cycle. -/
theorem Environment.fetch_ne_cyclicReference (env : Environment) (p path : Path)
    (found : String) : env.fetch p ≠ .error (.cyclicReference path found) := by
  unfold Environment.fetch
  split
  · simp
  · unfold Environment.read
    split
    · simp
    · unfold ParsedModule.parse
      split_ifs
      · simp
      · simp

/-- Looking a name up never reports a cycle. -/
theorem meaning_ne_cyclicReference (m : ParsedModule) (name : String) (path : Path)
    (found : String) : env.meaning m name ≠ .error (.cyclicReference path found) := by
  unfold Environment.meaning
  cases m.site? name with
  | some site => simp
  | none =>
      cases m.typeOrigin? name with
      | none => simp
      | some origin =>
          cases hfetch : env.fetch (m.path.resolveSpecifier origin.source) with
          | error e =>
              intro h
              simp only [hfetch, bind, Except.bind] at h
              cases h
              exact env.fetch_ne_cyclicReference _ path found hfetch
          | ok linked =>
              cases hsite : linked.site? origin.imported with
              | none => simp [hfetch, hsite, bind, Except.bind]
              | some site => simp [hfetch, hsite, bind, Except.bind]

/-- The invariant of the path: every active type leads to what the name stands for. -/
def Trails (env : Environment) (active : List TypeKey) (m : ParsedModule) (name : String) : Prop :=
  ∀ k ∈ active, ∀ start, Denotes env m name start → Relation.TransGen (Refers env) k start.key

/-- A cycle that an expansion reports is one of the graph, and can be reached from the type
that the name stands for. -/
theorem cycle_of_expand (hfinite : keys.Finite) {path : Path} {found : String} :
    ∀ {n : Nat} {active : List TypeKey} {m : ParsedModule} {name : String},
      env.Loads m → Covers env keys m → Roomy keys n active → Trails env active m name →
      expand env n active m name = .error (.cyclicReference path found) →
      ∃ start site, Denotes env m name start ∧ Declared env site ∧ site.module.path = path ∧
        site.name = found ∧ Reaches env start.key site.key ∧ OnCycle env site.key := by
  intro n
  induction n with
  | zero =>
      intro active m name _ _ hroomy _ _
      exact absurd hroomy (Roomy.not_zero hfinite)
  | succ n ih =>
      intro active m name hm hcovers hroomy htrails h
      rcases expand_succ_eq_error h with hmeaning | ⟨site, hmeaning, hcase⟩
      · exact absurd hmeaning (meaning_ne_cyclicReference m name path found)
      have hdenotes : Denotes env m name site := denotes_iff.mpr hmeaning
      have hsite := hdenotes.isDeclared hm
      rcases hcase with ⟨hactive, hfailure⟩ | ⟨hfresh, base, hbase, hfails⟩
      · -- The type is active, so it leads to itself.
        obtain ⟨rfl, rfl⟩ := Failure.cyclicReference.inj hfailure
        exact ⟨site, site, hdenotes, hsite, rfl, rfl, Relation.ReflTransGen.refl,
          htrails _ hactive site hdenotes⟩
      · obtain ⟨hkey, hcovers'⟩ := hcovers.of_meaning hmeaning
        have hedge : ∀ target, Denotes env site.module base target →
            Refers env site.key target.key :=
          fun target htarget => hsite.refers_iff.mpr ⟨base, hbase, target, htarget, rfl⟩
        have htrails' : Trails env (site.key :: active) site.module base := by
          intro k hk target htarget
          rcases List.mem_cons.mp hk with rfl | hk
          · exact Relation.TransGen.single (hedge target htarget)
          · exact (htrails k hk site hdenotes).tail (hedge target htarget)
        obtain ⟨target, reported, htarget, hreported, hpath, hname, hreaches, hcycle⟩ :=
          ih hsite.loads hcovers' (hroomy.push hkey hfresh) htrails' hfails
        exact ⟨site, reported, hdenotes, hreported, hpath, hname,
          Relation.ReflTransGen.head (hedge target htarget) hreaches, hcycle⟩

/-- A name of a module of the environment has property names exactly if it stands for a
settled type. -/
theorem exists_props_iff {m : ParsedModule} {name : String} (hm : env.Loads m) :
    (∃ props, env.props m name = .ok props) ↔
      ∃ start, Denotes env m name start ∧ Settled env start.key := by
  have hcovers := Covers.of_loads hm
  have hprops := expand_eq_props name env.finite_typeKeys hcovers (Nat.lt_succ_self _)
  rw [← hprops]
  constructor
  · rintro ⟨props, h⟩
    exact settled_of_expand hm h
  · rintro ⟨start, hdenotes, hsettled⟩
    refine exists_expand_of_settled env.finite_typeKeys hm hcovers
      (Roomy.start (Nat.lt_succ_self _)) hdenotes hsettled ?_
    intro k hk
    cases hk

end Expansion

namespace Session

/-- The guard against cycles is exact.  After every history of calls, resolution succeeds
exactly if the name stands for a type from which only complete types on no cycle can be
reached, and a cycle that it reports is one that can be reached. -/
theorem resolved_exact (env : Environment) (history : List Call) {m : ParsedModule}
    (hm : env.Loads m) (name : String) :
    ((∃ props, resolved env history m name = .ok props) ↔
      ∃ start, Denotes env m name start ∧
        ∀ k, Reaches env start.key k → Complete env k ∧ ¬ OnCycle env k) ∧
    ∀ path found, resolved env history m name = .error (.cyclicReference path found) →
      ∃ start site, Denotes env m name start ∧ Declared env site ∧ site.module.path = path ∧
        site.name = found ∧ Reaches env start.key site.key ∧ OnCycle env site.key := by
  rw [resolved_eq_props]
  refine ⟨exists_props_iff hm, ?_⟩
  intro path found h
  have hcovers := Covers.of_loads hm
  rw [← expand_eq_props name env.finite_typeKeys hcovers (Nat.lt_succ_self _)] at h
  refine cycle_of_expand env.finite_typeKeys hm hcovers (Roomy.start (Nat.lt_succ_self _)) ?_ h
  intro k hk
  cases hk

theorem resolved_exact_diamond :
    Diamond.env.Loads Diamond.entry ∧
      ∃ start, Denotes Diamond.env Diamond.entry "B" start ∧
        ∀ k, Reaches Diamond.env start.key k →
          Complete Diamond.env k ∧ ¬ OnCycle Diamond.env k := by
  have hexact := resolved_exact Diamond.env [] Diamond.loads_entry "B"
  exact ⟨Diamond.loads_entry, hexact.1.mp ⟨_, Diamond.resolved_entry⟩⟩

end Session
end PropSurface
