import Mathlib.Data.List.Nodup
import PropSurface.Proofs.Cache.Stability

/-!
# Identity of cached modules

A module is an entry of the cache, known by its number in the order in which modules were stored.
On unchanging files, the canonical path of the file that a request finds decides which entry it is
answered with, however the path is spelled and whatever was requested before.

**Definitions.**
* `Environment.canonicalFile?`: the canonical path of the file that a request finds.
* `Cache.after`: the cache that a list of requests leaves.
* `Cache.AnsweredWith`: a request is answered with an entry of the cache.
* `Cache.Accurate`: a faithful cache in which no file is stored twice, or parsed again.

**Results.**
* `Cache.exists_answeredWith`: a request that succeeds is answered with an entry.
* `Cache.Accurate.load`: what a request preserves.
* `Cache.Accurate.eq_iff_of_answeredWith`: when two requests are answered with the same entry.
* `Cache.same_entry_iff`: the same for any two requests of a history.
-/

namespace PropSurface

namespace Environment

variable {env : Environment} {m : ParsedModule} {p : Path}

/-- The canonical path of the file that a request finds, that is of the first spelling of its
normal path that is a file. -/
def canonicalFile? (env : Environment) (p : Path) : Option Path :=
  (env.files.moduleFile? p.normalize).bind env.files.canonicalize?

/-- What is fetched is read at the canonical path of the file that is found. -/
theorem canonicalFile?_of_fetch (h : env.fetch p = .ok m) :
    env.canonicalFile? p = some m.path := by
  unfold fetch at h
  split at h
  · cases h
  · rename_i found hfound
    obtain ⟨place, _, _, hcanonical⟩ := exists_fileAt_of_moduleFile? hfound
    rw [hcanonical, Option.getD_some] at h
    rw [canonicalFile?, hfound, Option.bind_some, hcanonical, path_of_read h]

theorem fetch_of_canonicalFile? {resolved : Path} (h : env.canonicalFile? p = some resolved) :
    env.fetch p = env.read resolved := by
  obtain ⟨found, hfound, hcanonical⟩ := Option.bind_eq_some_iff.mp h
  simp only [fetch, hfound, hcanonical, Option.getD_some]

/-- The path of a module of the environment fetches it. -/
theorem Provides.fetch_path (h : env.Provides m) : env.fetch m.path = .ok m := by
  refine h.fetch_eq ?_
  obtain ⟨place, _, hfile, hpath, _⟩ := h
  rw [hpath, hfile.direct.normalize_pathOf]

end Environment

namespace Cache

/-- What a list of requests leaves of a cache. -/
def after (c : Cache) (env : Environment) (requests : List Path) : Cache :=
  requests.foldl (fun c p => (c.load env p).2) c

/-- A request is answered with entry `i` of the cache, the module `m`.  Either the entry was there
before, and nothing is parsed, or it is added at the end, after it was parsed. -/
structure AnsweredWith (env : Environment) (c : Cache) (p : Path) (i : Nat) (m : ParsedModule) :
    Prop where
  reply : (c.load env p).1 = .ok m
  entry : (c.load env p).2.modules[i]? = some m
  origin : (c.load env p).2.modules = c.modules ∧ (c.load env p).2.parsed = c.parsed ∨
    i = c.modules.length ∧ (c.load env p).2.modules = c.modules ++ [m] ∧
      (c.load env p).2.parsed = c.parsed ++ [m.path]

variable {env : Environment} {c : Cache} {p q : Path} {m n : ParsedModule}

/-! ### One request -/

theorem parsed_store (c : Cache) (requested : Path) (m : ParsedModule) :
    (c.store requested m).parsed = c.parsed := by
  simp only [store]
  split <;> rfl

/-- A request that succeeds is answered with an entry. -/
theorem exists_answeredWith (h : (c.load env p).1 = .ok m) : ∃ i, c.AnsweredWith env p i m := by
  have hold : ∀ {q : Path}, c.get? q = some m → (c.load env p).2.modules = c.modules →
      (c.load env p).2.parsed = c.parsed → ∃ i, c.AnsweredWith env p i m := by
    intro q hget hmodules hparsed
    obtain ⟨i, hi⟩ := List.mem_iff_getElem?.mp (List.mem_of_find?_eq_some hget)
    exact ⟨i, h, by rw [hmodules, hi], .inl ⟨hmodules, hparsed⟩⟩
  have hloaded := loaded_load env p c
  generalize hreply : c.load env p = reply at h hloaded hold
  cases hloaded with
  | known hknown =>
      cases h
      exact hold hknown rfl rfl
  | failed e parsed => cases h
  | recorded hknown hget =>
      cases h
      exact hold hget rfl rfl
  | stored hknown hget =>
      cases h
      refine ⟨c.modules.length, by rw [hreply], ?_, .inr ⟨rfl, ?_, ?_⟩⟩
      · rw [hreply]
        simp
      · rw [hreply]
        simp
      · rw [hreply, parsed_store, logParse]

theorem parsed_adopt_of_error {requested resolved : Path} {e : Failure}
    (h : env.read resolved = .error e) :
    (adopt env requested resolved c).2.parsed = c.parsed ∨
      (adopt env requested resolved c).2.parsed = c.parsed ++ [resolved] := by
  unfold adopt
  unfold Environment.read at h
  cases hread : env.files.readText? resolved with
  | none => exact .inl rfl
  | some source =>
      rw [hread] at h
      simp only at h
      simp only [h]
      exact .inr rfl

/-- When a request fails, the parser has not run, or it has failed. -/
theorem parsed_of_error {e : Failure} (h : (c.load env p).1 = .error e) :
    (c.load env p).2.parsed = c.parsed ∨
      ∃ r, env.read r = .error e ∧ (c.load env p).2.parsed = c.parsed ++ [r] := by
  cases hknown : c.known? p.normalize with
  | some m => exact .inl (by rw [load_of_known? hknown])
  | none =>
      cases hfound : env.files.moduleFile? p.normalize with
      | none => exact .inl (by rw [load_of_moduleFile?_eq_none hknown hfound])
      | some found =>
          obtain ⟨place, _, _, hcanonical⟩ := Environment.exists_fileAt_of_moduleFile? hfound
          cases hget : c.get? (FileSystem.pathOf place) with
          | some m =>
              rw [load_of_get? hknown hfound hcanonical hget] at h
              cases h
          | none =>
              rw [load_of_get?_eq_none hknown hfound hcanonical hget] at h ⊢
              rw [adopt_fst] at h
              rcases parsed_adopt_of_error h with hsame | hlogged
              · exact .inl hsame
              · exact .inr ⟨FileSystem.pathOf place, h, hlogged⟩

/-! ### Accuracy -/

/-- A cache that is faithful, and in which no two modules have the same path; what can be parsed
was parsed as often as it is stored. -/
structure Accurate (env : Environment) (c : Cache) : Prop where
  faithful : Faithful env c
  nodup : (c.modules.map (·.path)).Nodup
  parsed : ∀ r x, env.read r = .ok x → c.parsed.count r = (c.modules.map (·.path)).count r

theorem accurate_empty (env : Environment) : Accurate env .empty :=
  ⟨faithful_empty env, List.nodup_nil, fun _ _ _ => rfl⟩

/-- A module that a request adds has a path of its own. -/
theorem not_mem_of_modules_append (h : (c.load env p).2.modules = c.modules ++ [m]) :
    m.path ∉ c.modules.map (·.path) := by
  have hloaded := loaded_load env p c
  generalize c.load env p = reply at h hloaded
  have hlength := congrArg List.length h
  cases hloaded with
  | known hknown => simp at hlength
  | failed e parsed => simp at hlength
  | recorded hknown hget => simp at hlength
  | @stored n hknown hget =>
      rw [modules_store, modules_logParse] at h
      obtain rfl : n = m := List.singleton_inj.mp (List.append_cancel_left h)
      intro hmem
      obtain ⟨old, hold, hpath⟩ := List.mem_map.mp hmem
      refine List.find?_eq_none.mp hget old hold ?_
      rw [hpath]
      exact Path.same_refl n.path

namespace Accurate

/-- What a request preserves. -/
theorem load (h : Accurate env c) (p : Path) : Accurate env (c.load env p).2 := by
  have hfaithful := h.faithful.load p
  cases hreply : (c.load env p).1 with
  | error e =>
      obtain ⟨hmodules, -⟩ := (loaded_load env p c).eq_of_error hreply
      refine ⟨hfaithful, hmodules ▸ h.nodup, ?_⟩
      intro r x hread
      rw [hmodules, ← h.parsed r x hread]
      rcases parsed_of_error hreply with hsame | ⟨r', hfailed, hlogged⟩
      · rw [hsame]
      · -- What was logged cannot be parsed, and `r` can.
        have hne : r' ≠ r := by
          rintro rfl
          rw [hread] at hfailed
          cases hfailed
        rw [hlogged, List.count_append, List.count_singleton]
        simp [hne]
  | ok m =>
      obtain ⟨i, hi⟩ := exists_answeredWith hreply
      rcases hi.origin with ⟨hmodules, hparsed⟩ | ⟨-, hmodules, hparsed⟩
      · exact ⟨hfaithful, hmodules ▸ h.nodup, hmodules ▸ hparsed ▸ h.parsed⟩
      · refine ⟨hfaithful, ?_, ?_⟩
        · rw [hmodules, List.map_append, List.map_singleton, ← List.concat_eq_append]
          exact .concat (not_mem_of_modules_append hmodules) h.nodup
        · intro r x hread
          rw [hmodules, hparsed, List.map_append, List.count_append, List.count_append,
            h.parsed r x hread, List.map_singleton]

/-- What a list of requests preserves. -/
theorem after (h : Accurate env c) (requests : List Path) :
    Accurate env (c.after env requests) := by
  induction requests generalizing c with
  | nil => exact h
  | cons p requests ih => exact ih (h.load p)

/-- Entries of an accurate cache are told apart by their paths. -/
theorem eq_iff_path_eq (h : Accurate env c) {i j : Nat} (hi : c.modules[i]? = some m)
    (hj : c.modules[j]? = some n) : i = j ↔ m.path = n.path := by
  refine ⟨fun heq => by rw [Option.some_inj.mp (hi.symm.trans (heq ▸ hj))], ?_⟩
  intro hpath
  have hlt : i < (c.modules.map (·.path)).length := by
    rw [List.length_map]
    exact (List.getElem?_eq_some_iff.mp hi).1
  refine (List.getElem?_inj hlt h.nodup).mp ?_
  rw [List.getElem?_map, List.getElem?_map, hi, hj, Option.map_some, Option.map_some, hpath]

/-- What can be parsed is parsed once at most. -/
theorem count_parsed_le (h : Accurate env c) {r : Path} (hread : env.read r = .ok m) :
    c.parsed.count r ≤ 1 := by
  rw [h.parsed r m hread]
  exact List.nodup_iff_count_le_one.mp h.nodup r

/-- A module that is answered has the canonical path of the file that the request finds. -/
theorem canonicalFile?_eq (h : Accurate env c) (hm : (c.load env p).1 = .ok m) :
    env.canonicalFile? p = some m.path :=
  Environment.canonicalFile?_of_fetch (by rw [← h.faithful.load_fst, hm])

end Accurate

/-! ### Many requests -/

theorem prefix_modules_load (env : Environment) (c : Cache) (p : Path) :
    c.modules <+: (c.load env p).2.modules := by
  cases hreply : (c.load env p).1 with
  | error e => exact ((loaded_load env p c).eq_of_error hreply).1 ▸ List.prefix_rfl
  | ok m =>
      obtain ⟨i, hi⟩ := exists_answeredWith hreply
      rcases hi.origin with ⟨hmodules, -⟩ | ⟨-, hmodules, -⟩
      · exact hmodules ▸ List.prefix_rfl
      · exact ⟨[m], hmodules.symm⟩

theorem prefix_modules_after (env : Environment) (c : Cache) (requests : List Path) :
    c.modules <+: (c.after env requests).modules := by
  induction requests generalizing c with
  | nil => exact List.prefix_rfl
  | cons p requests ih => exact (prefix_modules_load env c p).trans (ih _)

/-- An entry that a request is answered with is there after all later requests. -/
theorem AnsweredWith.entry_later {i : Nat} (h : c.AnsweredWith env p i m) (between : List Path)
    (q : Path) :
    (((c.load env p).2.after env between).load env q).2.modules[i]? = some m := by
  have hgrows : (c.load env p).2.modules <+:
      (((c.load env p).2.after env between).load env q).2.modules :=
    (prefix_modules_after env _ between).trans (prefix_modules_load env _ q)
  obtain ⟨hlt, hget⟩ := List.getElem?_eq_some_iff.mp h.entry
  rw [List.prefix_iff_getElem?.mp hgrows i hlt, hget]

/-- Two requests of an accurate cache are answered with the same entry if and only if the modules
that they are answered with have the same path. -/
theorem Accurate.eq_iff_of_answeredWith (h : Accurate env c) (between : List Path) {i j : Nat}
    (hi : c.AnsweredWith env p i m)
    (hj : ((c.load env p).2.after env between).AnsweredWith env q j n) :
    i = j ↔ m.path = n.path :=
  (((h.load p).after between).load q).eq_iff_path_eq (hi.entry_later between q) hj.entry

/-- While the files stay as they are, every request that succeeds is answered with an entry of the
cache, and two of them with the same one if and only if the files that they find have the same
canonical path.  This path is the path of the module.  What can be parsed is parsed once at most,
and a module that is requested again by its own path is answered with the same entry. -/
theorem same_entry_iff (env : Environment) (before between : List Path) {p q : Path}
    {m n : ParsedModule}
    (hm : ((empty.after env before).load env p).1 = .ok m)
    (hn : ((((empty.after env before).load env p).2.after env between).load env q).1 = .ok n) :
    let c := empty.after env before
    let d := (c.load env p).2.after env between
    (∃ i, c.AnsweredWith env p i m) ∧ (∃ j, d.AnsweredWith env q j n) ∧
      (∀ i j, c.AnsweredWith env p i m → d.AnsweredWith env q j n →
        (i = j ↔ env.canonicalFile? p = env.canonicalFile? q)) ∧
      env.canonicalFile? p = some m.path ∧ env.canonicalFile? q = some n.path ∧
      (∀ r x, env.read r = .ok x → (d.load env q).2.parsed.count r ≤ 1) ∧
      ∀ i, c.AnsweredWith env p i m → d.AnsweredWith env m.path i m := by
  intro c d
  have hc : Accurate env c := (accurate_empty env).after before
  have hd : Accurate env d := (hc.load p).after between
  have hp : env.canonicalFile? p = some m.path := hc.canonicalFile?_eq hm
  have hq : env.canonicalFile? q = some n.path := hd.canonicalFile?_eq hn
  refine ⟨exists_answeredWith hm, exists_answeredWith hn, ?_, hp, hq, ?_, ?_⟩
  · intro i j hi hj
    rw [hp, hq, Option.some_inj]
    exact hc.eq_iff_of_answeredWith between hi hj
  · intro r x hread
    exact (hd.load q).count_parsed_le hread
  · intro i hi
    have hfetch : env.fetch p = .ok m := by rw [← hc.faithful.load_fst, hm]
    have hprovides : env.Provides m := Environment.Loads.provides ⟨p, hfetch⟩
    have hagain : (d.load env m.path).1 = .ok m := by
      rw [hd.faithful.load_fst, hprovides.fetch_path]
    obtain ⟨j, hj⟩ := exists_answeredWith hagain
    have hij : i = j := (hc.eq_iff_of_answeredWith between hi hj).mpr rfl
    exact hij ▸ hj

end Cache

/-! ### A directory, a link to it, and its file

The same file is requested through a link to its directory, and by its own path with dot segments
and without its extension. -/

namespace Spellings

def files : FileSystem :=
  ⟨[ (["lib"], .directory), (["index.ts", "lib"], .file "first".toUTF8),
      (["other.ts", "lib"], .file "second".toUTF8), (["link"], .link ⟨"/lib"⟩) ], ⟨"/lib"⟩⟩

def env : Environment := { files := files, concrete := Replacement.concrete }

def index : ParsedModule := ⟨⟨"/lib/index.ts"⟩, "first", .node ⟨.sourceFile, ⟨0, 5⟩⟩ []⟩

end Spellings

open Spellings in
/-- The second request is answered with the entry of the first, after another file was loaded in
between. -/
theorem Cache.same_entry_iff_spellings :
    ∃ i, empty.AnsweredWith env ⟨"/link"⟩ i index ∧
      ((empty.load env ⟨"/link"⟩).2.after env [⟨"./other"⟩]).AnsweredWith env
        ⟨"../lib/./index"⟩ i index := by
  have hread : env.read index.path = .ok index := by rfl
  have hlink : env.canonicalFile? ⟨"/link"⟩ = some index.path := by decide +kernel
  have hdots : env.canonicalFile? ⟨"../lib/./index"⟩ = some index.path := by decide +kernel
  have hstart : Accurate env (empty.after env []) := accurate_empty env
  have hm : ((empty.after env []).load env ⟨"/link"⟩).1 = .ok index := by
    rw [hstart.faithful.load_fst, Environment.fetch_of_canonicalFile? hlink, hread]
  have hn : ((((empty.after env []).load env ⟨"/link"⟩).2.after env [⟨"./other"⟩]).load env
      ⟨"../lib/./index"⟩).1 = .ok index := by
    rw [((hstart.load _).after _).faithful.load_fst, Environment.fetch_of_canonicalFile? hdots,
      hread]
  obtain ⟨⟨i, hi⟩, ⟨j, hj⟩, hiff, hp, hq, -⟩ := same_entry_iff env [] [⟨"./other"⟩] hm hn
  have hij : i = j := (hiff i j hi hj).mpr (hp.trans hq.symm)
  exact ⟨i, hi, hij ▸ hj⟩

end PropSurface
