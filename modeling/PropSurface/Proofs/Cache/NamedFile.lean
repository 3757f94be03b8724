import PropSurface.Proofs.Cache.Identity
import PropSurface.Proofs.FileSystem.NormalPaths

/-!
# Paths that name files

A request is normalized before any file is looked at, and several spellings of it are tried.
Where no link leads to a directory, a path to a file is answered with that file all the same.

**Definitions.**
* `Cache.Opens`: a fresh cache answers a path with the file at a place.

**Results.**
* `FileSystem.LinksLeadToFiles.resolve?_normalize`: the normal form of a path to a file leads to
  that file.
* `Environment.fetch_of_resolve?`: what such a path fetches is read at the canonical path.
* `Cache.opens_named_file`: a path to a file opens that file, and so does a specifier that is
  joined to the directory of a module.
-/

namespace PropSurface

namespace FileSystem

variable {fs : FileSystem} {p : Path} {place : Place} {bytes : ByteArray}

theorem resolve?_eq_some_iff :
    fs.resolve? p = some place ↔ isTooLong p = false ∧ fs.follow? p = some place := by
  rw [resolve?]
  cases isTooLong p with
  | true => simp
  | false => simp

theorem isFile_of_resolve? (h : fs.resolve? p = some place)
    (hfile : fs.entry? place = some (.file bytes)) : fs.isFile p = true := by
  rw [isFile, find?, h, Option.bind_some, hfile]

/-- If no link leads to a directory, the normal form of a path to a file leads to that file.  It
is no longer than the path. -/
theorem LinksLeadToFiles.resolve?_normalize (hfiles : fs.LinksLeadToFiles)
    (h : fs.resolve? p = some place) (hfile : fs.entry? place = some (.file bytes)) :
    fs.resolve? p.normalize = some place := by
  obtain ⟨hshort, hfollow⟩ := resolve?_eq_some_iff.mp h
  have hsize := Path.utf8ByteSize_normalize_le (follow?_eq_some_iff.mp hfollow).1
  refine resolve?_eq_some_iff.mpr ⟨?_, hfiles.follow?_normalize hfollow hfile⟩
  rw [isTooLong, decide_eq_false_iff_not] at hshort ⊢
  omega

end FileSystem

open FileSystem

section NamedFile

variable {env : Environment} {p : Path} {place : Place} {bytes : ByteArray}

/-- A path to a file fetches what is read at the canonical path of that file. -/
theorem Environment.fetch_of_resolve? (hfiles : env.files.LinksLeadToFiles)
    (h : env.files.resolve? p = some place)
    (hfile : env.files.entry? place = some (.file bytes)) :
    env.fetch p = env.read (pathOf place) := by
  have hnormal := hfiles.resolve?_normalize h hfile
  have hcanonical : env.files.canonicalize? p.normalize = some (pathOf place) := by
    rw [canonicalize?, (resolve?_eq_some_iff.mp hnormal).2, Option.map_some]
  refine fetch_of_canonicalFile? ?_
  rw [canonicalFile?, moduleFile?_of_isFile (isFile_of_resolve? hnormal hfile), Option.bind_some,
    hcanonical]

namespace Cache

/-- A module that a fresh cache answers with is stored under its own path. -/
theorem get?_load_empty {m : ParsedModule} (h : (empty.load env p).1 = .ok m) :
    (empty.load env p).2.get? m.path = some m := by
  obtain ⟨i, hi⟩ := exists_answeredWith h
  have hconsistent := (consistent_empty.of_loaded (loaded_load env p empty)).1
  exact hconsistent.modules m (List.mem_of_getElem? hi.entry)

/-- A fresh cache answers a path with the file at a place: the place is where the path leads to,
the answer is what is read at its canonical path, be it a module or an error, and a module is
stored under that path. -/
structure Opens (env : Environment) (p : Path) (place : Place) : Prop where
  resolves : env.files.resolve? p = some place
  canonical : env.files.canonicalize? p = some (pathOf place)
  reply : (empty.load env p).1 = env.read (pathOf place)
  stored : ∀ m, (empty.load env p).1 = .ok m →
    m.path = pathOf place ∧ (empty.load env p).2.get? (pathOf place) = some m

theorem opens_of_resolve? (hfiles : env.files.LinksLeadToFiles)
    (h : env.files.resolve? p = some place)
    (hfile : env.files.entry? place = some (.file bytes)) : Opens env p place := by
  have hreply : (empty.load env p).1 = env.read (pathOf place) := by
    rw [load_empty_fst, Environment.fetch_of_resolve? hfiles h hfile]
  refine ⟨h, by rw [canonicalize?, (resolve?_eq_some_iff.mp h).2, Option.map_some], hreply, ?_⟩
  intro m hm
  have hpath : m.path = pathOf place := Environment.path_of_read (hreply.symm.trans hm)
  exact ⟨hpath, hpath ▸ get?_load_empty hm⟩

/-- If no link leads to a directory, a path that leads to a file opens that file, and so does its
normal form.  A specifier opens the file that it leads to from the directory of the importing
module. -/
theorem opens_named_file (hfiles : env.files.LinksLeadToFiles)
    (h : env.files.resolve? p = some place)
    (hfile : env.files.entry? place = some (.file bytes)) :
    Opens env p place ∧ Opens env p.normalize place ∧
      ∀ (importer : Path) (specifier : String),
        (importer.parent?.getD ⟨""⟩).join ⟨specifier⟩ = p →
          Opens env (importer.resolveSpecifier specifier) place := by
  have hnormal : Opens env p.normalize place :=
    opens_of_resolve? hfiles (hfiles.resolve?_normalize h hfile) hfile
  refine ⟨opens_of_resolve? hfiles h hfile, hnormal, ?_⟩
  rintro importer specifier rfl
  exact hnormal

end Cache

end NamedFile

/-! ### A link to a file, and files of similar names

The file has no extension, and next to it and to the link there are others that have one. -/

namespace Variants

def files : FileSystem :=
  ⟨[ (["lib"], .directory), (["a", "lib"], .file "first".toUTF8),
      (["a.ts", "lib"], .file "second".toUTF8), (["pick"], .link ⟨"/lib/a"⟩),
      (["pick.ts"], .file "third".toUTF8) ], ⟨"/lib"⟩⟩

def env : Environment := { files := files, concrete := Replacement.concrete }

theorem linksLeadToFiles : files.LinksLeadToFiles := by
  intro here s target place hentry hwalk
  have hmem : (s :: here, Entry.link target) ∈ files.entries :=
    FileSystem.mem_entries_of_eq_some (List.cons_ne_nil s here) hentry
  obtain ⟨⟨rfl, rfl⟩, rfl⟩ : (s = "pick" ∧ here = []) ∧ target = ⟨"/lib/a"⟩ := by
    simpa [files] using hmem
  have hlead : files.walk (fun _ => none) maxLinks ["pick"] [] = some ["a", "lib"] := by
    decide +kernel
  rw [hlead] at hwalk
  cases hwalk
  decide +kernel

end Variants

open Variants in
/-- The path goes up from where the file system starts, and through a directory and back. -/
theorem Cache.opens_named_file_variants :
    Opens env ⟨"../lib/.//../pick"⟩ ["a", "lib"] ∧
      Opens env (Path.resolveSpecifier ⟨"../lib/x.ts"⟩ ".//../pick") ["a", "lib"] ∧
      (empty.load env ⟨"../lib/.//../pick"⟩).1 =
        .ok ⟨⟨"/lib/a"⟩, "first", .node ⟨.sourceFile, ⟨0, 5⟩⟩ []⟩ := by
  have hresolve : env.files.resolve? ⟨"../lib/.//../pick"⟩ = some ["a", "lib"] := by
    decide +kernel
  obtain ⟨hpath, -, hspecifier⟩ := opens_named_file linksLeadToFiles hresolve rfl
  refine ⟨hpath, hspecifier ⟨"../lib/x.ts"⟩ ".//../pick" (by decide +kernel), ?_⟩
  rw [hpath.reply]
  rfl

end PropSurface
