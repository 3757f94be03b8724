import PropSurface.FileSystem.Edit
import PropSurface.Proofs.Cache.Faithful

/-!
# Stable caches

A cache outlives the files it was filled from: between two requests files may be written,
removed and made again, and links may be turned elsewhere.  What was answered once is
answered ever after.

**Definitions.**
* `Cache.Loaded`: the four ways in which a request can end.
* `Cache.Consistent`: every module is found under its own path, every alias leads to a module.
* `Cache.Grows`: nothing that a cache knows is replaced or forgotten.
* `Moment`: the files and the cache at one time; an `Event` changes the one or asks the other.

**Results.**
* `Cache.loaded_load`: every request ends in one of the four ways.
* `Cache.Consistent.of_loaded`: what one request preserves.
* `Moment.of_run`: what a history of events preserves.
* `Moment.stable_run`: a cache stays consistent, holds one module per successful parse, and
  repeats what it has answered, whatever happens to the files.
-/

namespace PropSurface
namespace Cache

/-! ### Keys

Keys are compared by the components of paths. -/

section Keys

variable {p q : Path}

theorem get?_congr (c : Cache) (h : p.same q = true) : c.get? p = c.get? q := by
  simp only [get?, Path.same, Path.same_iff.mp h]

theorem alias?_congr (c : Cache) (h : p.same q = true) : c.alias? p = c.alias? q := by
  simp only [alias?, Path.same, Path.same_iff.mp h]

theorem known?_congr (c : Cache) (h : p.same q = true) : c.known? p = c.known? q := by
  unfold known?
  rw [alias?_congr c h]
  cases c.alias? q with
  | none => exact get?_congr c h
  | some resolved => rfl

theorem get?_store (c : Cache) (requested : Path) (m : ParsedModule) (p : Path) :
    (c.store requested m).get? p =
      (c.get? p).or (if m.path.same p then some m else none) := by
  rw [get?, modules_store, List.find?_append, List.find?_singleton, get?]

theorem alias?_record (c : Cache) (requested resolved p : Path) :
    (c.record requested resolved).alias? p =
      if requested.same p then some resolved else c.alias? p := by
  rw [alias?, record, List.find?_cons]
  split <;> simp_all [alias?]

theorem alias?_store (c : Cache) (requested : Path) (m : ParsedModule) (p : Path) :
    (c.store requested m).alias? p =
      if requested.same m.path then c.alias? p
      else if requested.same p then some m.path else c.alias? p := by
  by_cases hsame : requested.same m.path = true
  · simp [store, hsame, alias?]
  · rw [if_neg hsame, ← alias?_record, store, if_neg hsame]
    rfl

end Keys

/-! ### The ends of a request -/

/-- How a request for a normal path can end. -/
inductive Loaded (c : Cache) (requested : Path) : Except Failure ParsedModule × Cache → Prop
  /-- The path is known. -/
  | known {m : ParsedModule} (hknown : c.known? requested = some m) :
      Loaded c requested (.ok m, c)
  /-- No module can be had; the parser may have run. -/
  | failed (e : Failure) (parsed : List Path) :
      Loaded c requested (.error e, { c with parsed := parsed })
  /-- The file is stored already, and gets one more alias. -/
  | recorded {m : ParsedModule} {resolved : Path} (hknown : c.known? requested = none)
      (hget : c.get? resolved = some m) :
      Loaded c requested (.ok m, c.record requested resolved)
  /-- The file is parsed and stored. -/
  | stored {m : ParsedModule} (hknown : c.known? requested = none)
      (hget : c.get? m.path = none) :
      Loaded c requested (.ok m, (c.logParse m.path).store requested m)

theorem loaded_adopt (env : Environment) {c : Cache} {requested resolved : Path}
    (hknown : c.known? requested = none) (hget : c.get? resolved = none) :
    Loaded c requested (adopt env requested resolved c) := by
  have hfst := adopt_fst env requested resolved c
  unfold adopt at hfst ⊢
  cases hread : env.files.readText? resolved with
  | none => exact .failed _ c.parsed
  | some source =>
      simp only [hread] at hfst ⊢
      cases hparse : ParsedModule.parse resolved source
          (env.concrete (Grammar.ofPath resolved) source) with
      | error e => exact .failed e _
      | ok m =>
          rw [hparse] at hfst
          have hpath : m.path = resolved := Environment.path_of_read hfst.symm
          subst hpath
          exact .stored hknown hget

/-- Every request ends in one of the four ways. -/
theorem loaded_load (env : Environment) (p : Path) (c : Cache) :
    Loaded c p.normalize (c.load env p) := by
  cases hknown : c.known? p.normalize with
  | some m =>
      rw [load_of_known? hknown]
      exact .known hknown
  | none =>
      cases hfound : env.files.moduleFile? p.normalize with
      | none =>
          rw [load_of_moduleFile?_eq_none hknown hfound]
          exact .failed _ c.parsed
      | some found =>
          obtain ⟨place, _, _, hcanonical⟩ := Environment.exists_fileAt_of_moduleFile? hfound
          cases hget : c.get? (FileSystem.pathOf place) with
          | some m =>
              rw [load_of_get? hknown hfound hcanonical hget]
              exact .recorded hknown hget
          | none =>
              rw [load_of_get?_eq_none hknown hfound hcanonical hget]
              exact loaded_adopt env hknown hget

/-! ### What a request preserves -/

/-- Every module is found under its own path, and every alias leads to a module. -/
structure Consistent (c : Cache) : Prop where
  modules : ∀ m ∈ c.modules, c.get? m.path = some m
  aliases : ∀ a ∈ c.aliases, ∃ m, c.get? a.2 = some m

/-- Nothing that `c` knows is replaced or forgotten in `d`: modules stay where they are,
aliases keep what they stand for, and every known path names the same module. -/
structure Grows (c d : Cache) : Prop where
  modules : c.modules <+: d.modules
  aliases : ∀ {p resolved : Path}, c.alias? p = some resolved → d.alias? p = some resolved
  known : ∀ {p : Path} {m : ParsedModule}, c.known? p = some m → d.known? p = some m

namespace Grows

variable {c d e : Cache}

theorem refl (c : Cache) : Grows c c := ⟨List.prefix_rfl, id, id⟩

theorem trans (h : Grows c d) (h' : Grows d e) : Grows c e :=
  ⟨h.modules.trans h'.modules, fun hp => h'.aliases (h.aliases hp),
    fun hp => h'.known (h.known hp)⟩

end Grows

theorem consistent_empty : Consistent .empty :=
  ⟨fun _ h => absurd h List.not_mem_nil, fun _ h => absurd h List.not_mem_nil⟩

namespace Consistent

variable {c : Cache} {requested resolved p : Path} {m : ParsedModule}

theorem of_known?_eq_none (h : Consistent c) (hknown : c.known? p = none) :
    c.alias? p = none ∧ c.get? p = none := by
  unfold known? at hknown
  cases halias : c.alias? p with
  | none => exact ⟨rfl, by rwa [halias, Option.getD_none] at hknown⟩
  | some resolved =>
      obtain ⟨a, ha, rfl⟩ := Option.map_eq_some_iff.mp halias
      obtain ⟨m, hm⟩ := h.aliases a (List.mem_of_find?_eq_some ha)
      rw [halias, Option.getD_some, hm] at hknown
      cases hknown

theorem record (h : Consistent c) (hget : c.get? resolved = some m) :
    Consistent (c.record requested resolved) := by
  refine ⟨h.modules, ?_⟩
  intro a ha
  rcases List.mem_cons.mp ha with rfl | ha
  · exact ⟨m, hget⟩
  · exact h.aliases a ha

theorem store (h : Consistent c) (hget : c.get? m.path = none) :
    Consistent (c.store requested m) := by
  have hold : ∀ {q : Path} {n : ParsedModule}, c.get? q = some n →
      (c.store requested m).get? q = some n := by
    intro q n hq
    rw [get?_store, hq, Option.some_or]
  have hnew : (c.store requested m).get? m.path = some m := by
    rw [get?_store, hget, Option.none_or, if_pos (Path.same_refl m.path)]
  refine ⟨?_, ?_⟩
  · intro n hn
    rw [modules_store] at hn
    rcases List.mem_append.mp hn with hn | hn
    · exact hold (h.modules n hn)
    · rw [List.mem_singleton.mp hn]
      exact hnew
  · intro a ha
    have hcases : a = (requested, m.path) ∨ a ∈ c.aliases := by
      unfold Cache.store at ha
      split_ifs at ha
      · exact Or.inr ha
      · exact List.mem_cons.mp ha
    rcases hcases with rfl | ha
    · exact ⟨m, hnew⟩
    · obtain ⟨n, hn⟩ := h.aliases a ha
      exact ⟨n, hold hn⟩

/-- A cache that keeps its modules in place, and that has new aliases for one path only, knows
all it knew, if that path was not known. -/
theorem grows_of_alias? (h : Consistent c) (hknown : c.known? requested = none) {d : Cache}
    (hmodules : c.modules <+: d.modules)
    (halias : ∀ q, ¬ requested.same q = true → d.alias? q = c.alias? q) : Grows c d := by
  have hget : ∀ {q : Path} {n : ParsedModule}, c.get? q = some n → d.get? q = some n := by
    intro q n hq
    obtain ⟨new, hnew⟩ := hmodules
    rw [get?, ← hnew, List.find?_append, ← get?, hq, Option.some_or]
  refine ⟨hmodules, ?_, ?_⟩
  · intro q r hq
    rw [halias q, hq]
    intro hsame
    rw [← alias?_congr c hsame, (h.of_known?_eq_none hknown).1] at hq
    cases hq
  · intro q n hq
    have hother : ¬ requested.same q = true := by
      intro hsame
      rw [← known?_congr c hsame, hknown] at hq
      cases hq
    rw [known?, halias q hother]
    exact hget hq

theorem grows_record (h : Consistent c) (hknown : c.known? requested = none) :
    Grows c (c.record requested resolved) := by
  refine h.grows_of_alias? hknown List.prefix_rfl ?_
  intro q hother
  rw [alias?_record, if_neg hother]

theorem grows_store (h : Consistent c) (hknown : c.known? requested = none) :
    Grows c (c.store requested m) := by
  refine h.grows_of_alias? hknown ?_ ?_
  · rw [modules_store]
    exact List.prefix_append _ _
  · intro q hother
    rw [alias?_store, if_neg hother, ite_self]

theorem known?_store (h : Consistent c) (hknown : c.known? requested = none)
    (hget : c.get? m.path = none) : (c.store requested m).known? requested = some m := by
  obtain ⟨halias, hrequested⟩ := h.of_known?_eq_none hknown
  rw [known?, alias?_store]
  by_cases hsame : requested.same m.path = true
  · have hpath : m.path.same requested = true := by rw [Path.same_comm, hsame]
    rw [if_pos hsame, halias, Option.getD_none, get?_store, hrequested, Option.none_or,
      if_pos hpath]
  · rw [if_neg hsame, if_pos (Path.same_refl requested), Option.getD_some, get?_store, hget,
      Option.none_or, if_pos (Path.same_refl m.path)]

/-- A request keeps a cache consistent, and what is known stays known. -/
theorem of_loaded (h : Consistent c) {reply : Except Failure ParsedModule × Cache}
    (hloaded : Loaded c requested reply) : Consistent reply.2 ∧ Grows c reply.2 := by
  cases hloaded with
  | known hknown => exact ⟨h, .refl c⟩
  | failed e parsed => exact ⟨⟨h.modules, h.aliases⟩, List.prefix_rfl, id, id⟩
  | recorded hknown hget => exact ⟨h.record hget, h.grows_record hknown⟩
  | @stored m hknown hget =>
      -- The log of the parser is no part of what a cache knows.
      have hlog : Consistent (c.logParse m.path) := ⟨h.modules, h.aliases⟩
      exact ⟨hlog.store hget, (hlog.grows_store hknown).modules,
        (hlog.grows_store hknown).aliases, (hlog.grows_store hknown).known⟩

/-- The module that a request answers with is known under the request from then on. -/
theorem known?_of_loaded (h : Consistent c) {reply : Except Failure ParsedModule × Cache}
    (hloaded : Loaded c requested reply) (hm : reply.1 = .ok m) :
    reply.2.known? requested = some m := by
  cases hloaded with
  | known hknown =>
      cases hm
      exact hknown
  | failed e parsed => cases hm
  | recorded hknown hget =>
      cases hm
      rw [known?, alias?_record, if_pos (Path.same_refl requested), Option.getD_some]
      exact hget
  | stored hknown hget =>
      cases hm
      have hlog : Consistent (c.logParse m.path) := ⟨h.modules, h.aliases⟩
      exact hlog.known?_store hknown hget

end Consistent

/-- A request that fails changes neither the modules nor the aliases. -/
theorem Loaded.eq_of_error {c : Cache} {requested : Path} {e : Failure}
    {reply : Except Failure ParsedModule × Cache} (h : Loaded c requested reply)
    (he : reply.1 = .error e) :
    reply.2.modules = c.modules ∧ reply.2.aliases = c.aliases := by
  cases h with
  | failed e parsed => exact ⟨rfl, rfl⟩
  | known hknown => cases he
  | recorded hknown hget => cases he
  | stored hknown hget => cases he

/-- Whether a request ended with a module that was parsed for it: the log of the parser has
grown. -/
def parsedAnew (c : Cache) (reply : Except Failure ParsedModule × Cache) : Bool :=
  reply.1.isOk && decide (c.parsed.length < reply.2.parsed.length)

/-- A request adds a module exactly when one is parsed for it. -/
theorem Loaded.length_modules {c : Cache} {requested : Path}
    {reply : Except Failure ParsedModule × Cache} (h : Loaded c requested reply) :
    reply.2.modules.length = c.modules.length + (c.parsedAnew reply).toNat := by
  cases h with
  | known hknown => simp [parsedAnew]
  | failed e parsed => simp [parsedAnew, Except.isOk, Except.toBool]
  | recorded hknown hget => simp [parsedAnew, record]
  | @stored m hknown hget =>
      have hparsed : ((c.logParse m.path).store requested m).parsed = c.parsed ++ [m.path] := by
        unfold store
        split <;> rfl
      simp [parsedAnew, hparsed, Except.isOk, Except.toBool]

end Cache

/-! ### Histories -/

/-- Something that happens while a cache is in use. -/
inductive Event where
  /-- A module is requested. -/
  | load (p : Path)
  /-- Files are written, removed, made again or linked, in any way. -/
  | edit (change : FileSystem → FileSystem)

/-- The files and the cache at one time. -/
structure Moment where
  files : FileSystem
  cache : Cache

namespace Moment

variable (concrete : Grammar → String → Concrete)

def env (now : Moment) : Environment := { files := now.files, concrete := concrete }

/-- The answer to a request made now, and the cache that it leaves. -/
def reply (now : Moment) (p : Path) : Except Failure ParsedModule × Cache :=
  now.cache.load (now.env concrete) p

def step (now : Moment) : Event → Moment
  | .load p => { now with cache := (now.reply concrete p).2 }
  | .edit change => { now with files := change now.files }

/-- What a history leads to. -/
def run (now : Moment) (history : List Event) : Moment := history.foldl (step concrete) now

/-- Whether an event gets a module parsed. -/
def parses (now : Moment) : Event → Bool
  | .load p => now.cache.parsedAnew (now.reply concrete p)
  | .edit _ => false

/-- Number of the modules that get parsed in a history. -/
def parseCount : Moment → List Event → Nat
  | _, [] => 0
  | now, event :: rest =>
      (now.parses concrete event).toNat + parseCount (now.step concrete event) rest

def start (files : FileSystem) : Moment := ⟨files, .empty⟩

/-- What one event preserves: consistency, and all that the cache knows. -/
theorem of_step {now : Moment} (h : now.cache.Consistent) (event : Event) :
    (now.step concrete event).cache.Consistent ∧
      now.cache.Grows (now.step concrete event).cache := by
  cases event with
  | load p => exact h.of_loaded (Cache.loaded_load _ p now.cache)
  | edit change => exact ⟨h, .refl now.cache⟩

theorem length_modules_step (now : Moment) (event : Event) :
    (now.step concrete event).cache.modules.length =
      now.cache.modules.length + (now.parses concrete event).toNat := by
  cases event with
  | load p => exact (Cache.loaded_load _ p now.cache).length_modules
  | edit change => rfl

/-- What a history preserves: consistency, and all that the cache knew before. -/
theorem of_run {now : Moment} (h : now.cache.Consistent) (history : List Event) :
    (now.run concrete history).cache.Consistent ∧
      now.cache.Grows (now.run concrete history).cache := by
  induction history generalizing now with
  | nil => exact ⟨h, .refl now.cache⟩
  | cons event history ih =>
      obtain ⟨hstep, hgrows⟩ := of_step concrete h event
      obtain ⟨hrun, hgrows'⟩ := ih hstep
      exact ⟨hrun, hgrows.trans hgrows'⟩

theorem length_modules_run (now : Moment) (history : List Event) :
    (now.run concrete history).cache.modules.length =
      now.cache.modules.length + now.parseCount concrete history := by
  induction history generalizing now with
  | nil => rfl
  | cons event history ih =>
      have hstep := length_modules_step concrete now event
      have hrun := ih (now.step concrete event)
      simp only [run, List.foldl_cons, parseCount] at hrun ⊢
      omega

theorem reply_of_known? {now : Moment} {p : Path} {m : ParsedModule}
    (h : now.cache.known? p.normalize = some m) : now.reply concrete p = (.ok m, now.cache) :=
  Cache.load_of_known? h

/-- After every history of requests and changes of the files, the cache is consistent and holds
one module per successful parse.  A request that fails leaves modules and aliases as they are;
nothing is replaced or forgotten later; and a request that succeeds is answered with the same
module at all later times, however the path is spelled and without use of the parser.  The
modules of a consistent cache differ in their paths, so an equal answer is the same entry. -/
theorem stable_run (concrete : Grammar → String → Concrete) (files : FileSystem)
    (before after : List Event) (p q : Path) :
    let now := (start files).run concrete before
    let later := now.run concrete (.load p :: after)
    now.cache.Consistent ∧
      now.cache.modules.length = (start files).parseCount concrete before ∧
      now.cache.Grows later.cache ∧
      (∀ e, (now.reply concrete p).1 = .error e →
        (now.reply concrete p).2.modules = now.cache.modules ∧
          (now.reply concrete p).2.aliases = now.cache.aliases) ∧
      ∀ m, (now.reply concrete p).1 = .ok m → q.normalize.same p.normalize = true →
        later.reply concrete q = (.ok m, later.cache) := by
  intro now later
  have hnow : now.cache.Consistent := (of_run concrete Cache.consistent_empty before).1
  have hloaded : Cache.Loaded now.cache p.normalize (now.reply concrete p) :=
    Cache.loaded_load _ p now.cache
  refine ⟨hnow, ?_, (of_run concrete hnow _).2, ?_, ?_⟩
  · have hlength := length_modules_run concrete (start files) before
    rwa [start, Cache.empty, List.length_nil, Nat.zero_add] at hlength
  · intro e he
    exact hloaded.eq_of_error he
  · intro m hm hsame
    have hstep : (now.step concrete (.load p)).cache.known? p.normalize = some m :=
      hnow.known?_of_loaded hloaded hm
    have hlater : later.cache.known? p.normalize = some m :=
      (of_run concrete (of_step concrete hnow (.load p)).1 after).2.known hstep
    exact reply_of_known? concrete (by rw [Cache.known?_congr _ hsame, hlater])

end Moment

/-! ### A directory that gives way to a file

A module is loaded by the name of its directory.  Then a file takes the place of the directory,
and is loaded itself, through a link. -/

namespace Replacement

def concrete : Grammar → String → Concrete :=
  fun _ source => .node ⟨"program", ⟨0, source.utf8ByteSize⟩, true, false, false, false, []⟩ []

def files : FileSystem :=
  ⟨[(["lib"], .directory), (["index.ts", "lib"], .file "old".toUTF8)], ⟨"/"⟩⟩

def history : List Event :=
  [ .edit fun fs => (fs.remove ⟨"/lib"⟩).2,
    .edit fun fs => fs.write ⟨"/lib"⟩ "new".toUTF8,
    .edit fun fs => fs.addLink ⟨"/link"⟩ ⟨"/lib"⟩,
    .load ⟨"/link"⟩ ]

def first : ParsedModule :=
  ⟨⟨"/lib/index.ts"⟩, "old", .node ⟨.sourceFile, ⟨0, 3⟩⟩ []⟩

def later : Moment := (Moment.start files).run concrete (.load ⟨"/lib"⟩ :: history)

end Replacement

/-- The path under which the first module was requested is by now the path of another one, and
still names the first. -/
theorem Moment.stable_run_replacement :
    ((Moment.start Replacement.files).reply Replacement.concrete ⟨"/lib"⟩).1 =
        .ok Replacement.first ∧
      Replacement.later.cache.modules.map (·.path) = [⟨"/lib/index.ts"⟩, ⟨"/lib"⟩] ∧
      Replacement.later.reply Replacement.concrete ⟨"/link/../lib"⟩ =
        (.ok Replacement.first, Replacement.later.cache) := by
  have hfirst : ((Moment.start Replacement.files).reply Replacement.concrete ⟨"/lib"⟩).1 =
      .ok Replacement.first := by rfl
  have hstable := Moment.stable_run Replacement.concrete Replacement.files [] Replacement.history
    ⟨"/lib"⟩ ⟨"/link/../lib"⟩
  exact ⟨hfirst, by decide +kernel,
    hstable.2.2.2.2 Replacement.first hfirst (by decide +kernel)⟩

end PropSurface
