import PropSurface.Proofs.Cache.Faithful
import PropSurface.Resolution

/-!
# Answers that do not depend on the cache

Resolution runs in a session, that is with a cache and with the keys that are active.  This
module separates the two.

**Definitions.**
* `Answers env active x r`: from every session with a faithful cache and the given active
  keys, `x` comes to the result `r`, and leaves the same keys active and a faithful cache.
* `Environment.meaning`: the declaration that a name means, straight from the files.
* `expand`: resolution without a session; the active keys are an argument, and are never
  changed but for the expansions within.

**Results.**
* `Answers.bind`, `answers_mapM`, `answers_expanding`, …: answers compose as the computations
  do.
* `answers_resolveWithin`: resolution in a session comes to what `expand` says.
-/

namespace PropSurface

variable {α β : Type}

theorem Resolve.run_bind (x : Resolve α) (f : α → Resolve β) (s : Session) :
    (x >>= f).run s = ExceptT.bindCont f (x.run s).1 (x.run s).2 :=
  rfl

/-- What follows a computation that succeeds runs in the session it leaves. -/
theorem Resolve.run_bind_of_ok {x : Resolve α} {s s' : Session} {a : α}
    (h : x.run s = (.ok a, s')) (f : α → Resolve β) : (x >>= f).run s = (f a).run s' := by
  rw [Resolve.run_bind, h]
  rfl

/-- A computation that fails ends what follows it. -/
theorem Resolve.run_bind_of_error {x : Resolve α} {s s' : Session} {e : Failure}
    (h : x.run s = (.error e, s')) (f : α → Resolve β) :
    (x >>= f).run s = (.error e, s') := by
  rw [Resolve.run_bind, h]
  rfl

theorem Resolve.run_expanding_of_mem {key : TypeKey} {s : Session} (h : key ∈ s.active)
    (failure : Failure) (body : Resolve α) :
    (expanding key failure body).run s = (.error failure, s) :=
  if_pos h

theorem Resolve.run_expanding_of_not_mem {key : TypeKey} {s : Session} (h : key ∉ s.active)
    (failure : Failure) (body : Resolve α) :
    (expanding key failure body).run s =
      ((body.run { s with active := key :: s.active }).1,
        { (body.run { s with active := key :: s.active }).2 with
          active := (body.run { s with active := key :: s.active }).2.active.erase key }) :=
  if_neg h

/-- From every session with a faithful cache in which exactly `active` are active, `x` comes
to `r`, and it leaves the active keys as they were and the cache faithful. -/
def Answers (env : Environment) (active : List TypeKey) (x : Resolve α)
    (r : Except Failure α) : Prop :=
  ∀ s : Session, s.active = active → s.cache.Faithful env →
    (x.run s).1 = r ∧ (x.run s).2.active = active ∧ (x.run s).2.cache.Faithful env

section Calculus

variable {env : Environment} {active : List TypeKey}

theorem answers_pure (a : α) : Answers env active (pure a) (.ok a) :=
  fun _ hactive hcache => ⟨rfl, hactive, hcache⟩

theorem answers_throw (e : Failure) : Answers env active (throw e : Resolve α) (.error e) :=
  fun _ hactive hcache => ⟨rfl, hactive, hcache⟩

theorem Answers.bind {x : Resolve α} {r : Except Failure α} {f : α → Resolve β}
    {g : α → Except Failure β} (hx : Answers env active x r)
    (hf : ∀ a, r = .ok a → Answers env active (f a) (g a)) :
    Answers env active (x >>= f) (r >>= g) := by
  intro s hactive hcache
  obtain ⟨hresult, hactive', hcache'⟩ := hx s hactive hcache
  rcases hrun : x.run s with ⟨e | a, s'⟩
  · rw [hrun] at hresult hactive' hcache'
    subst hresult
    rw [Resolve.run_bind_of_error hrun]
    exact ⟨rfl, hactive', hcache'⟩
  · rw [hrun] at hresult hactive' hcache'
    subst hresult
    rw [Resolve.run_bind_of_ok hrun]
    exact hf a rfl s' hactive' hcache'

/-- Loading answers with what the files have. -/
theorem answers_load (p : Path) : Answers env active (Resolve.load env p) (env.fetch p) :=
  fun _ hactive hcache => ⟨hcache.load_fst p, hactive, hcache.load p⟩

theorem answers_mapM {f : β → Resolve α} {g : β → Except Failure α}
    (h : ∀ b, Answers env active (f b) (g b)) :
    ∀ bs : List β, Answers env active (bs.mapM f) (bs.mapM g)
  | [] => answers_pure []
  | b :: bs => by
      rw [List.mapM_cons, List.mapM_cons]
      refine (h b).bind fun a _ => ?_
      exact (answers_mapM h bs).bind fun as _ => answers_pure (a :: as)

/-- Reaching an active key is a failure. -/
theorem answers_expanding_of_mem {key : TypeKey} (hkey : key ∈ active) (failure : Failure)
    (body : Resolve α) :
    Answers env active (Resolve.expanding key failure body) (.error failure) := by
  intro s hactive hcache
  rw [Resolve.run_expanding_of_mem (hactive ▸ hkey)]
  exact ⟨rfl, hactive, hcache⟩

/-- An expansion makes its key active for what it does, and for that only. -/
theorem answers_expanding {key : TypeKey} (hkey : key ∉ active) (failure : Failure)
    {body : Resolve α} {r : Except Failure α} (hbody : Answers env (key :: active) body r) :
    Answers env active (Resolve.expanding key failure body) r := by
  intro s hactive hcache
  obtain ⟨hresult, hactive', hcache'⟩ :=
    hbody { s with active := key :: s.active } (congrArg (key :: ·) hactive) hcache
  rw [Resolve.run_expanding_of_not_mem (hactive ▸ hkey)]
  refine ⟨hresult, ?_, hcache'⟩
  simp only [hactive', List.erase_cons_head]

end Calculus

/-- The declaration that a name means in a module, straight from the files. -/
def Environment.meaning (env : Environment) (m : ParsedModule) (name : String) :
    Except Failure Site :=
  match m.site? name with
  | some site => .ok site
  | none =>
      match m.typeOrigin? name with
      | none => .error (.typeNotFound m.path name)
      | some origin => do
          let linked ← env.fetch (m.path.resolveSpecifier origin.source)
          match linked.site? origin.imported with
          | some site => .ok site
          | none => .error (.typeNotFound m.path name)

/-- Property names of a type, through expansions nested at most `n` deep, while the given
keys are active. -/
def expand (env : Environment) :
    Nat → List TypeKey → ParsedModule → String → Except Failure (List String)
  | 0, _, m, name => .error (.cyclicReference m.path name)
  | n + 1, active, m, name => do
      let site ← env.meaning m name
      if site.key ∈ active then .error (.cyclicReference site.module.path site.name)
      else
        let inherited ← site.shape.bases.mapM (expand env n (site.key :: active) site.module)
        pure (inherited.flatten ++ site.shape.own)

section Resolution

variable {env : Environment} {active : List TypeKey}

/-- Looking a name up answers with its meaning. -/
theorem answers_locate (m : ParsedModule) (name : String) :
    Answers env active (locate env m name) (env.meaning m name) := by
  unfold locate Environment.meaning
  cases m.site? name with
  | some site => exact answers_pure site
  | none =>
      cases m.typeOrigin? name with
      | none => exact answers_throw _
      | some origin =>
          refine (answers_load _).bind fun linked _ => ?_
          cases linked.site? origin.imported with
          | some site => exact answers_pure site
          | none => exact answers_throw _

/-- Resolution in a session answers with the expansion. -/
theorem answers_resolveWithin : ∀ (n : Nat) (active : List TypeKey) (m : ParsedModule)
    (name : String),
    Answers env active (resolveWithin env n m name) (expand env n active m name)
  | 0, _, m, name => answers_throw _
  | n + 1, active, m, name => by
      rw [resolveWithin, expand]
      refine (answers_locate m name).bind fun site _ => ?_
      by_cases hkey : site.key ∈ active
      · rw [if_pos hkey]
        exact answers_expanding_of_mem hkey _ _
      · rw [if_neg hkey]
        refine answers_expanding hkey _ ?_
        refine (answers_mapM (fun base => ?_) _).bind fun inherited _ => answers_pure _
        exact answers_resolveWithin n (site.key :: active) site.module base

end Resolution

end PropSurface
