import PropSurface.Concrete.Sample
import PropSurface.Extraction
import PropSurface.Proofs.Resolution.Depth

/-!
# Sessions are transparent

A session answers many requests with one cache, and with one set of active keys that is
entered and left on the way.  Neither can be seen from outside: on unchanging files, every
request is answered as in a fresh session, whatever was asked before and whether it
succeeded or failed.

**Definitions.**
* `Call`, `Reply`: what a session is asked, and what it says.
* `Session.after`, `Session.replies`: the session that a history of calls leaves, and what
  was said in it.
* `Session.resolved`: what resolution comes to after a history of calls.
* `Session.Idle`: nothing is active and the cache is faithful.

**Results.**
* `Session.idle_after`: sessions are idle between calls.
* `Session.Idle.run_eq`: idle sessions reply alike.
* `Session.replies_eq_map_fresh`: replies do not depend on the history.
-/

namespace PropSurface

/-- A request to a session. -/
inductive Call where
  /-- Load the module that a path names. -/
  | load (p : Path)
  /-- The props of the component that the module at a path exports. -/
  | extract (entry : Path)
  /-- The prop type of the default export of a module. -/
  | propType (m : ParsedModule)
  /-- The property names of the type that a name means in a module. -/
  | resolve (m : ParsedModule) (name : String)

/-- The answer to a request. -/
inductive Reply where
  | module (result : Except Failure ParsedModule)
  | props (result : Except Failure (List String))
  | propType (result : Except Failure (Option PropType))

/-- Carry out a request: the reply, and the session that is left. -/
def Call.run (env : Environment) : Call → Session → Reply × Session
  | load p, s => ((Resolve.load env p).run s).map .module id
  | extract entry, s => ((extractProps env entry).run s).map .props id
  | propType m, s => ((findPropType env m).run s).map .propType id
  | resolve m name, s => ((resolveType env m name).run s).map .props id

namespace Session

/-- The session that is left when the calls of a history were made in a fresh one. -/
def after (env : Environment) (history : List Call) : Session :=
  history.foldl (fun s call => (call.run env s).2) .fresh

/-- The replies to calls that are made one after the other. -/
def replies (env : Environment) : Session → List Call → List Reply
  | _, [] => []
  | s, call :: calls => (call.run env s).1 :: replies env (call.run env s).2 calls

/-- What resolution of a name comes to after a history of calls. -/
def resolved (env : Environment) (history : List Call) (m : ParsedModule) (name : String) :
    Except Failure (List String) :=
  ((resolveType env m name).run (after env history)).1

/-- A session between two calls: nothing is active, and the cache is faithful. -/
structure Idle (env : Environment) (s : Session) : Prop where
  active : s.active = []
  cache : s.cache.Faithful env

theorem idle_fresh (env : Environment) : Idle env .fresh :=
  ⟨rfl, Cache.faithful_empty env⟩

end Session

/-! ### Computations that do not show the session -/

/-- A computation whose result depends on the active keys only, not on the cache. -/
def Transparent {α : Type} (env : Environment) (active : List TypeKey) (x : Resolve α) : Prop :=
  ∃ r, Answers env active x r

section Transparent

variable {α β : Type} {env : Environment} {active : List TypeKey}

theorem transparent_pure (a : α) : Transparent env active (pure a : Resolve α) :=
  ⟨_, answers_pure a⟩

theorem transparent_throw (e : Failure) : Transparent env active (throw e : Resolve α) :=
  ⟨_, answers_throw e⟩

theorem transparent_load (p : Path) : Transparent env active (Resolve.load env p) :=
  ⟨_, answers_load p⟩

theorem Transparent.bind {x : Resolve α} {f : α → Resolve β} (hx : Transparent env active x)
    (hf : ∀ a, Transparent env active (f a)) : Transparent env active (x >>= f) := by
  obtain ⟨r, hr⟩ := hx
  choose g hg using hf
  exact ⟨_, hr.bind fun a _ => hg a⟩

theorem transparent_forwardedPropType (m : ParsedModule) :
    Transparent env active (forwardedPropType env m) := by
  unfold forwardedPropType
  split
  · exact transparent_pure none
  · refine (transparent_load _).bind fun target => ?_
    split
    · exact transparent_pure _
    · split_ifs
      · exact transparent_throw _
      · exact transparent_pure none

theorem transparent_findPropType (m : ParsedModule) :
    Transparent env active (findPropType env m) := by
  unfold findPropType
  split
  · exact transparent_pure _
  · exact transparent_forwardedPropType m

theorem transparent_resolveType (m : ParsedModule) (name : String) :
    Transparent env [] (resolveType env m name) :=
  ⟨_, answers_resolveType env m name⟩

theorem transparent_extractProps (entry : Path) : Transparent env [] (extractProps env entry) := by
  unfold extractProps
  refine (transparent_load entry).bind fun m => ?_
  refine (transparent_findPropType m).bind fun found => ?_
  cases found with
  | none => exact transparent_throw _
  | some propType => exact transparent_resolveType _ _

end Transparent

namespace Session

variable {env : Environment} {s t : Session}

/-- Transparent computations come to the same result in all idle sessions, and leave them
idle. -/
theorem Idle.of_transparent {α : Type} {x : Resolve α} (hx : Transparent env [] x)
    (hs : Idle env s) (ht : Idle env t) :
    (x.run s).1 = (x.run t).1 ∧ Idle env (x.run s).2 := by
  obtain ⟨r, hr⟩ := hx
  obtain ⟨hresult, hactive, hcache⟩ := hr s hs.active hs.cache
  obtain ⟨hresult', _, _⟩ := hr t ht.active ht.cache
  exact ⟨hresult.trans hresult'.symm, hactive, hcache⟩

/-- A call has the same reply in all idle sessions, and leaves them idle. -/
theorem Idle.run_eq (hs : Idle env s) (ht : Idle env t) (call : Call) :
    (call.run env s).1 = (call.run env t).1 ∧ Idle env (call.run env s).2 := by
  cases call with
  | load p =>
      obtain ⟨hresult, hidle⟩ := Idle.of_transparent (transparent_load p) hs ht
      exact ⟨congrArg Reply.module hresult, hidle⟩
  | extract entry =>
      obtain ⟨hresult, hidle⟩ := Idle.of_transparent (transparent_extractProps entry) hs ht
      exact ⟨congrArg Reply.props hresult, hidle⟩
  | propType m =>
      obtain ⟨hresult, hidle⟩ := Idle.of_transparent (transparent_findPropType m) hs ht
      exact ⟨congrArg Reply.propType hresult, hidle⟩
  | resolve m name =>
      obtain ⟨hresult, hidle⟩ := Idle.of_transparent (transparent_resolveType m name) hs ht
      exact ⟨congrArg Reply.props hresult, hidle⟩

/-- Sessions are idle between calls. -/
theorem idle_after (env : Environment) (history : List Call) : Idle env (after env history) := by
  have hfold : ∀ s : Session, Idle env s →
      Idle env (history.foldl (fun s call => (call.run env s).2) s) := by
    induction history with
    | nil => exact fun s hs => hs
    | cons call history ih => exact fun s hs => ih _ (hs.run_eq hs call).2
  exact hfold .fresh (idle_fresh env)

theorem Idle.replies_eq (hs : Idle env s) :
    ∀ calls : List Call, replies env s calls = calls.map fun call => (call.run env .fresh).1 := by
  intro calls
  induction calls generalizing s with
  | nil => rfl
  | cons call calls ih =>
      obtain ⟨hreply, hidle⟩ := hs.run_eq (idle_fresh env) call
      rw [replies, List.map_cons, hreply, ih hidle]

/-- Resolution comes to the same after every history. -/
theorem resolved_eq_props (env : Environment) (history : List Call) (m : ParsedModule)
    (name : String) : resolved env history m name = env.props m name := by
  have hidle := idle_after env history
  exact (answers_resolveType env m name _ hidle.active hidle.cache).1

/-- Calls that are made one after the other in one session are answered as if each was made
in a fresh one, and nothing is active after any of them. -/
theorem replies_eq_map_fresh (env : Environment) (calls : List Call) :
    replies env .fresh calls = calls.map (fun call => (call.run env .fresh).1) ∧
      ∀ k, (after env (calls.take k)).active = [] :=
  ⟨(idle_fresh env).replies_eq calls, fun k => (idle_after env (calls.take k)).active⟩

end Session

/-! ### A diamond

A project of one module, in which a type has two bases and one of them is a base of the other
one as well. -/

namespace Diamond

open Sample

def source : String :=
  "interface T { x } interface L extends T { } interface B extends L, T { y }"

def tree : Concrete :=
  rule "program" 0 74 []
    [ declaration 0 17 [rule "interface_body" 12 17 ["body"] [member 14]],
      declaration 18 43
        [rule "extends_type_clause" 30 39 [] [base 38], rule "interface_body" 40 43 ["body"] []],
      declaration 44 74
        [ rule "extends_type_clause" 56 68 [] [base 64, base 67],
          rule "interface_body" 69 74 ["body"] [member 71] ] ]

def env : Environment where
  files := ⟨[(["m.ts"], .file source.toUTF8)], ⟨"/"⟩⟩
  concrete := fun _ _ => tree

def entry : ParsedModule := ⟨⟨"/m.ts"⟩, source, Lowering.lowerRoot source tree⟩

theorem loads_entry : env.Loads entry := ⟨⟨"/m.ts"⟩, by rfl⟩

/-- The properties of the common base come once for each way that leads to it. -/
theorem resolved_entry : Session.resolved env [] entry "B" = .ok ["x", "x", "y"] := by
  decide +kernel

end Diamond

end PropSurface
