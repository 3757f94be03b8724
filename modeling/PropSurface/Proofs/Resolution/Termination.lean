import PropSurface.Proofs.Session.Transparency

/-!
# Termination of resolution

The rules of resolution set no limit on the depth: a name is looked up, its declaration is
made active, its bases are resolved one after the other, and the declaration is left.
`Resolves` is the relation of all finished runs by these rules, and says of each that no
more than a given number of expansions was active at any time.

**Results.**
* `resolves_resolveWithin`: where the limit leaves room, the limited run is a finished run by
  the rules, with no more active expansions than there are types.
* `Session.ends_run`: every request to a session ends by the rules, however the declarations,
  imports and exports refer to one another, and never has more active expansions than there
  are declared types in the files.
-/

namespace PropSurface

mutual

/-- `Resolves env bound m name s r s'`: resolution of `name` in `m` that starts in session `s`
ends with the result `r` in session `s'`, and no more than `bound` expansions are active at
any time. -/
inductive Resolves (env : Environment) (bound : Nat) :
    ParsedModule → String → Session → Except Failure (List String) → Session → Prop
  /-- The name means nothing. -/
  | unknown {m : ParsedModule} {name : String} {s s' : Session} {e : Failure} :
      (locate env m name).run s = (.error e, s') →
      Resolves env bound m name s (.error e) s'
  /-- The declaration is active already. -/
  | cyclic {m : ParsedModule} {name : String} {s s' : Session} {site : Site} :
      (locate env m name).run s = (.ok site, s') → site.key ∈ s'.active →
      Resolves env bound m name s (.error (.cyclicReference site.module.path site.name)) s'
  /-- The declaration becomes active, its bases are resolved, and it is left. -/
  | expanded {m : ParsedModule} {name : String} {s s₁ s₂ : Session} {site : Site}
      {r : Except Failure (List (List String))} :
      (locate env m name).run s = (.ok site, s₁) → site.key ∉ s₁.active →
      s₁.active.length + 1 ≤ bound →
      ResolvesAll env bound site.module site.shape.bases
        { s₁ with active := site.key :: s₁.active } r s₂ →
      Resolves env bound m name s
        (r.map fun inherited => inherited.flatten ++ site.shape.own)
        { s₂ with active := s₂.active.erase site.key }

/-- Resolution of several names of a module, one after the other up to the first failure. -/
inductive ResolvesAll (env : Environment) (bound : Nat) :
    ParsedModule → List String → Session → Except Failure (List (List String)) → Session → Prop
  | nil {m : ParsedModule} {s : Session} : ResolvesAll env bound m [] s (.ok []) s
  | failed {m : ParsedModule} {name : String} {names : List String} {s s' : Session}
      {e : Failure} :
      Resolves env bound m name s (.error e) s' →
      ResolvesAll env bound m (name :: names) s (.error e) s'
  | next {m : ParsedModule} {name : String} {names : List String} {s s₁ s₂ : Session}
      {props : List String} {r : Except Failure (List (List String))} :
      Resolves env bound m name s (.ok props) s₁ →
      ResolvesAll env bound m names s₁ r s₂ →
      ResolvesAll env bound m (name :: names) s (r.map (props :: ·)) s₂

end

/-- What follows a computation without touching the session maps its result. -/
theorem Resolve.run_bind_pure {α β : Type} (x : Resolve α) (f : α → β) (s : Session) :
    (x >>= fun a => pure (f a)).run s = ((x.run s).1.map f, (x.run s).2) := by
  rcases hrun : x.run s with ⟨e | a, s'⟩
  · rw [Resolve.run_bind_of_error hrun]
    rfl
  · rw [Resolve.run_bind_of_ok hrun]
    rfl

/-- If every name is resolved by the rules from every session in which the given keys are
active, so is a list of names. -/
theorem resolvesAll_mapM {env : Environment} {bound : Nat} {m : ParsedModule}
    {active : List TypeKey} {f : String → Resolve (List String)}
    {g : String → Except Failure (List String)}
    (hanswers : ∀ name, Answers env active (f name) (g name))
    (hresolves : ∀ name s, s.active = active → s.cache.Faithful env →
      Resolves env bound m name s ((f name).run s).1 ((f name).run s).2) :
    ∀ (names : List String) (s : Session), s.active = active → s.cache.Faithful env →
      ResolvesAll env bound m names s ((names.mapM f).run s).1 ((names.mapM f).run s).2
  | [], _, _, _ => .nil
  | name :: names, s, hactive, hcache => by
      have hhead := hresolves name s hactive hcache
      obtain ⟨_, hactive', hcache'⟩ := hanswers name s hactive hcache
      rw [List.mapM_cons]
      rcases hrun : (f name).run s with ⟨e | props, s₁⟩
      · rw [hrun] at hhead
        rw [Resolve.run_bind_of_error hrun]
        exact .failed hhead
      · rw [hrun] at hhead hactive' hcache'
        rw [Resolve.run_bind_of_ok hrun, Resolve.run_bind_pure]
        exact .next hhead (resolvesAll_mapM hanswers hresolves names s₁ hactive' hcache')

/-- Where the limit on the depth leaves room, the run is one by the rules.  The induction is
on the limit: every nested expansion makes a new key of the set active. -/
theorem resolves_resolveWithin {env : Environment} {keys : Set TypeKey}
    (hfinite : keys.Finite) :
    ∀ (n : Nat) (m : ParsedModule) (name : String) (s : Session), Covers env keys m →
      Roomy keys n s.active → s.cache.Faithful env →
      Resolves env keys.ncard m name s ((resolveWithin env n m name).run s).1
        ((resolveWithin env n m name).run s).2 := by
  intro n
  induction n with
  | zero =>
      intro m name s _ hroomy _
      exact absurd hroomy (Roomy.not_zero hfinite)
  | succ n ih =>
      intro m name s hcovers hroomy hcache
      obtain ⟨hresult, hactive, hcache'⟩ := answers_locate m name s rfl hcache
      rw [resolveWithin]
      rcases hlocate : (locate env m name).run s with ⟨e | site, s₁⟩
      · rw [Resolve.run_bind_of_error hlocate]
        exact .unknown hlocate
      · rw [hlocate] at hresult hactive hcache'
        obtain ⟨hkey, hsite⟩ := hcovers.of_meaning hresult.symm
        rw [← hactive] at hroomy
        rw [Resolve.run_bind_of_ok hlocate]
        by_cases hmem : site.key ∈ s₁.active
        · rw [Resolve.run_expanding_of_mem hmem]
          exact .cyclic hlocate hmem
        · have hroomy' := hroomy.push hkey hmem
          have hlength := hroomy'.length_le hfinite
          have hbases := resolvesAll_mapM
            (fun base => answers_resolveWithin n (site.key :: s₁.active) site.module base)
            (fun base t hactive hcache => ih site.module base t hsite (hactive ▸ hroomy') hcache)
            site.shape.bases { s₁ with active := site.key :: s₁.active } rfl hcache'
          rw [Resolve.run_expanding_of_not_mem hmem, Resolve.run_bind_pure]
          exact .expanded hlocate hmem hlength hbases

/-! ### Requests to a session -/

/-- `Ends env bound call s reply s'`: the request `call` to session `s` ends with `reply` and
leaves `s'`, and no more than `bound` expansions are active at any time. -/
inductive Ends (env : Environment) (bound : Nat) : Call → Session → Reply → Session → Prop
  | load {p : Path} {s s' : Session} {r : Except Failure ParsedModule} :
      (Resolve.load env p).run s = (r, s') → Ends env bound (.load p) s (.module r) s'
  | propType {m : ParsedModule} {s s' : Session} {r : Except Failure (Option PropType)} :
      (findPropType env m).run s = (r, s') → Ends env bound (.propType m) s (.propType r) s'
  | resolve {m : ParsedModule} {name : String} {s s' : Session}
      {r : Except Failure (List String)} :
      Resolves env bound m name s r s' → Ends env bound (.resolve m name) s (.props r) s'
  /-- The entry cannot be loaded. -/
  | unloaded {entry : Path} {s s' : Session} {e : Failure} :
      (Resolve.load env entry).run s = (.error e, s') →
      Ends env bound (.extract entry) s (.props (.error e)) s'
  /-- The export of the entry cannot be followed. -/
  | unfollowed {entry : Path} {m : ParsedModule} {s s₁ s₂ : Session} {e : Failure} :
      (Resolve.load env entry).run s = (.ok m, s₁) →
      (findPropType env m).run s₁ = (.error e, s₂) →
      Ends env bound (.extract entry) s (.props (.error e)) s₂
  /-- The entry exports no component. -/
  | unexported {entry : Path} {m : ParsedModule} {s s₁ s₂ : Session} :
      (Resolve.load env entry).run s = (.ok m, s₁) →
      (findPropType env m).run s₁ = (.ok none, s₂) →
      Ends env bound (.extract entry) s (.props (.error (.exportNotFound m.path))) s₂
  | extract {entry : Path} {m : ParsedModule} {propType : PropType} {s s₁ s₂ s₃ : Session}
      {r : Except Failure (List String)} :
      (Resolve.load env entry).run s = (.ok m, s₁) →
      (findPropType env m).run s₁ = (.ok (some propType), s₂) →
      Resolves env bound propType.module propType.name s₂ r s₃ →
      Ends env bound (.extract entry) s (.props r) s₃

/-- Whether a call is about modules of the environment only. -/
def Call.Within (env : Environment) : Call → Prop
  | load _ => True
  | extract _ => True
  | propType m => env.Loads m
  | resolve m _ => env.Loads m

/-- The prop type of a module of the environment belongs to one of its modules. -/
theorem loads_of_findPropType {env : Environment} {m : ParsedModule} (hm : env.Loads m)
    {s s' : Session} (hcache : s.cache.Faithful env) {propType : PropType}
    (h : (findPropType env m).run s = (.ok (some propType), s')) :
    env.Loads propType.module := by
  unfold findPropType at h
  split at h
  · cases h
    exact hm
  · unfold forwardedPropType at h
    split at h
    · cases h
    · rename_i origin _
      obtain ⟨hfetch, _, _⟩ :=
        answers_load (m.path.resolveSpecifier origin.source) s rfl hcache
      rcases hload : (Resolve.loadImport env m origin.source).run s with ⟨e | target, s₁⟩
      · rw [Resolve.run_bind_of_error hload] at h
        cases h
      · rw [Resolve.run_bind_of_ok hload] at h
        rw [Resolve.loadImport] at hload
        rw [hload] at hfetch
        split at h
        · cases h
          exact ⟨_, hfetch.symm⟩
        · split_ifs at h
          · cases h
          · cases h

namespace Session

variable {env : Environment} {s : Session}

/-- Resolution in an idle session ends by the rules. -/
theorem Idle.resolves_resolveType (hs : Idle env s) {m : ParsedModule} (hm : env.Loads m)
    (name : String) :
    Resolves env env.typeKeys.ncard m name s ((resolveType env m name).run s).1
      ((resolveType env m name).run s).2 := by
  have hsubset : env.typeKeys ⊆ env.typeKeys ∪ {key | key ∈ m.typeKeys} := Set.subset_union_left
  have hcount := env.ncard_typeKeys_le_keyCount s m
  have hle := Set.ncard_le_ncard hsubset (env.finite_typeKeys_union m)
  have hroomy : Roomy env.typeKeys (keyCount env s m + 1) s.active := by
    rw [hs.active]
    exact Roomy.start (by omega)
  exact resolves_resolveWithin env.finite_typeKeys _ m name s (Covers.of_loads hm) hroomy hs.cache

/-- Extraction in an idle session ends by the rules. -/
theorem Idle.ends_extractProps (hs : Idle env s) (entry : Path) :
    Ends env env.typeKeys.ncard (.extract entry) s
      (.props ((extractProps env entry).run s).1) ((extractProps env entry).run s).2 := by
  unfold extractProps
  obtain ⟨hfetch, hactive, hcache⟩ := answers_load entry s hs.active hs.cache
  rcases hload : (Resolve.load env entry).run s with ⟨e | m, s₁⟩
  · rw [Resolve.run_bind_of_error hload]
    exact .unloaded hload
  rw [hload] at hfetch hactive hcache
  have hidle : Idle env s₁ := ⟨hactive, hcache⟩
  have hidle' := (Idle.of_transparent (transparent_findPropType m) hidle hidle).2
  rw [Resolve.run_bind_of_ok hload]
  rcases hfind : (findPropType env m).run s₁ with ⟨e | _ | propType, s₂⟩
  · rw [Resolve.run_bind_of_error hfind]
    exact .unfollowed hload hfind
  · rw [Resolve.run_bind_of_ok hfind]
    exact .unexported hload hfind
  · rw [hfind] at hidle'
    rw [Resolve.run_bind_of_ok hfind]
    have hm : env.Loads m := ⟨entry, hfetch.symm⟩
    exact .extract hload hfind
      (hidle'.resolves_resolveType (loads_of_findPropType hm hcache hfind) propType.name)

/-- Every request ends by the rules, whatever was asked before and however the types, imports
and exports of the files refer to one another.  No more expansions are active at any time than
there are declared types in the files. -/
theorem ends_run (env : Environment) (history : List Call) (call : Call)
    (hcall : call.Within env) :
    Ends env env.typeKeys.ncard call (after env history)
      (call.run env (after env history)).1 (call.run env (after env history)).2 := by
  have hs := idle_after env history
  cases call with
  | load p => exact .load rfl
  | extract entry => exact hs.ends_extractProps entry
  | propType m => exact .propType rfl
  | resolve m name => exact .resolve (hs.resolves_resolveType hcall name)

theorem ends_run_diamond :
    (Call.resolve Diamond.entry "B").Within Diamond.env ∧
      ∃ s, Ends Diamond.env Diamond.env.typeKeys.ncard (.resolve Diamond.entry "B") .fresh
        (.props (.ok ["x", "x", "y"])) s := by
  have hends := ends_run Diamond.env [] (.resolve Diamond.entry "B") Diamond.loads_entry
  have hreply : ((Call.resolve Diamond.entry "B").run Diamond.env (after Diamond.env [])).1 =
      .props (.ok ["x", "x", "y"]) := congrArg Reply.props Diamond.resolved_entry
  rw [hreply] at hends
  exact ⟨Diamond.loads_entry, _, hends⟩

end Session
end PropSurface
