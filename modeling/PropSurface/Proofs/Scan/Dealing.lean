import Mathlib.Data.List.FinRange
import PropSurface.Concrete.Sample
import PropSurface.Proofs.Session.Transparency
import PropSurface.Scan.Run

/-!
# Dealing out a scan

The entries of a scan may be dealt out to any number of workers, in any order, each with a
cache of its own.  The report is the same, because the report on an entry depends on nothing but
the files and the entry itself.

**Definitions.**
* `Scan.reportAlone`: the report on an entry that is scanned alone.
* `Scan.Dealing`: a way to deal out the entries, each of them once.
* `Scan.Dealing.collect`: what the workers report, put back in the order of the entries.

**Results.**
* `Scan.scanEntry_of_faithful`: the step, one entry with the cache that earlier ones left.
* `Scan.scanShare_of_faithful`: the run over a share.
* `Scan.run_eq_collect`: a scan reports on each entry alone, in order, and every dealing comes
  to the report of the scan without workers.
-/

namespace PropSurface
namespace Scan

section Workers

variable (env : Environment) (root : Path)

/-- The report on an entry that is scanned alone, with a fresh cache. -/
def reportAlone (entry : Path) : FileReport :=
  ⟨reportPath env.files root entry, outcomeOf ((extractProps env entry).run .fresh).1⟩

/-! ### One worker -/

/-- With a faithful cache an entry is reported on as if it were alone, and the cache stays
faithful, whether the entry fails or not. -/
theorem scanEntry_of_faithful {cache : Cache} (h : cache.Faithful env) (entry : Path) :
    (scanEntry env root cache entry).1 = reportAlone env root entry ∧
      (scanEntry env root cache entry).2.Faithful env := by
  have hidle : Session.Idle env ⟨cache, []⟩ := ⟨rfl, h⟩
  obtain ⟨hresult, hidle'⟩ :=
    hidle.of_transparent (transparent_extractProps entry) (Session.idle_fresh env)
  refine ⟨?_, hidle'.cache⟩
  rw [reportAlone, ← hresult]
  rfl

theorem scanShare_of_faithful {cache : Cache} (h : cache.Faithful env) (share : List Path) :
    scanShare env root cache share = share.map (reportAlone env root) := by
  induction share generalizing cache with
  | nil => rfl
  | cons entry rest ih =>
      obtain ⟨hreport, hcache⟩ := scanEntry_of_faithful env root h entry
      rw [List.map_cons, ← hreport, ← ih hcache]
      rfl

theorem scanShare_empty (share : List Path) :
    scanShare env root .empty share = share.map (reportAlone env root) :=
  scanShare_of_faithful env root (Cache.faithful_empty env) share

/-! ### Shares -/

theorem flatten_pieces {α : Type} {length : Nat} (hlength : 0 < length) (n : Nat) (xs : List α)
    (hn : xs.length ≤ n) : (pieces length n xs).flatten = xs := by
  induction n generalizing xs with
  | zero =>
      have hxs : xs = [] := List.eq_nil_of_length_eq_zero (by omega)
      rw [hxs, pieces, List.flatten_nil]
  | succ n ih =>
      cases xs with
      | nil => rfl
      | cons x xs =>
          have hdrop : ((x :: xs).drop length).length ≤ n := by
            simp only [List.length_drop, List.length_cons] at hn ⊢
            omega
          simp only [pieces, List.isEmpty_cons, Bool.false_eq_true, if_false, List.flatten_cons]
          rw [ih _ hdrop, List.take_append_drop]

/-- The shares of the workers make up the entries again. -/
theorem flatten_shares {α : Type} (jobs : Nat) (xs : List α) : (shares jobs xs).flatten = xs := by
  unfold shares
  split_ifs with hjobs
  · simp
  · cases xs with
    | nil => rfl
    | cons x xs =>
        apply flatten_pieces _ _ _ (Nat.le_refl _)
        apply Nat.div_pos
        · simp only [List.length_cons]
          omega
        · omega

theorem entries_with_jobs (config : ScanConfig) (jobs : Nat) (fs : FileSystem) :
    ScanConfig.entries { config with jobs := jobs } fs = config.entries fs := by
  have hpattern : ScanConfig.fullPattern { config with jobs := jobs } = config.fullPattern := rfl
  unfold ScanConfig.entries
  rw [hpattern]

/-- The entries are what the pattern finds, if that is all files and in order already. -/
theorem entries_eq_of_search {config : ScanConfig} {fs : FileSystem} {plan : Glob.Plan}
    {found : List Path} (hplan : Glob.plan? ⟨config.fullPattern⟩ = some plan)
    (hsearch : plan.search fs = found) (hfiles : found.filter fs.isFile = found)
    (hsorted : found.Pairwise fun p q => p.le q = true) : config.entries fs = .ok found := by
  unfold ScanConfig.entries
  rw [hplan]
  simp only [hsearch, hfiles, List.mergeSort_of_pairwise hsorted]

/-- A scan reports on every entry as if it were alone, whatever the number of workers. -/
theorem run_eq_map (config : ScanConfig) :
    run env config = (config.entries env.files).map fun entries =>
      ⟨entries.map (reportAlone env config.root)⟩ := by
  have hshares : ∀ entries : List Path,
      (shares config.jobs entries).flatMap (scanShare env config.root .empty) =
        entries.map (reportAlone env config.root) := by
    intro entries
    calc (shares config.jobs entries).flatMap (scanShare env config.root .empty)
        = (shares config.jobs entries).flatMap (List.map (reportAlone env config.root)) := by
          rw [funext (scanShare_empty env config.root)]
      _ = (shares config.jobs entries).flatten.map (reportAlone env config.root) := by
          rw [List.flatMap_def, List.map_flatten]
      _ = entries.map (reportAlone env config.root) := by rw [flatten_shares]
  simp only [run, hshares]

/-! ### Dealings -/

/-- A way to deal out `n` entries: for every worker the numbers of its entries, in the order in
which it takes them.  Every entry is dealt out once. -/
structure Dealing (n : Nat) where
  hands : List (List (Fin n))
  once : hands.flatten.Perm (List.finRange n)

namespace Dealing

/-- What a worker reports on its hand, each report with the number of its entry.  The cache is
the worker's own, and empty at first. -/
def reports (entries : List Path) (hand : List (Fin entries.length)) :
    List (Fin entries.length × FileReport) :=
  hand.zip (scanShare env root .empty (hand.map entries.get))

/-- Whether a report belongs no later than another. -/
def noLater {n : Nat} (a b : Fin n × FileReport) : Bool := decide (a.1 ≤ b.1)

/-- What all workers report, put back in the order of the entries. -/
def collect (entries : List Path) (dealing : Dealing entries.length) : List FileReport :=
  ((dealing.hands.flatMap (reports env root entries)).mergeSort noLater).map (·.2)

theorem reports_eq_map (entries : List Path) (hand : List (Fin entries.length)) :
    reports env root entries hand =
      hand.map fun i => (i, reportAlone env root (entries.get i)) := by
  rw [reports, scanShare_empty, List.map_map]
  induction hand with
  | nil => rfl
  | cons i hand ih =>
      rw [List.map_cons, List.zip_cons_cons, List.map_cons, ih]
      rfl

/-- Numbered reports are put in order by their numbers. -/
theorem mergeSort_map_of_perm {n : Nat} (f : Fin n → FileReport) {numbers : List (Fin n)}
    (h : numbers.Perm (List.finRange n)) :
    (numbers.map fun i => (i, f i)).mergeSort noLater =
      (List.finRange n).map fun i => (i, f i) := by
  have hsorted : ((numbers.map fun i => (i, f i)).mergeSort noLater).Pairwise
      fun a b => noLater a b = true := by
    apply List.pairwise_mergeSort
    · intro a b c hab hbc
      exact decide_eq_true (Fin.le_trans (of_decide_eq_true hab) (of_decide_eq_true hbc))
    · intro a b
      simpa [noLater] using Fin.le_total a.1 b.1
  have hordered : ((List.finRange n).map fun i => (i, f i)).Pairwise
      fun a b => noLater a b = true := by
    rw [List.pairwise_map]
    exact (List.pairwise_lt_finRange n).imp fun hij => decide_eq_true (Fin.le_of_lt hij)
  -- Both lists are in order and hold the same reports, and no two reports have one number.
  refine List.Perm.eq_of_pairwise ?_ hsorted hordered
    ((List.mergeSort_perm _ _).trans (h.map _))
  intro a b ha hb hab hba
  obtain ⟨i, _, rfl⟩ := List.mem_map.mp ((List.mergeSort_perm _ _).mem_iff.mp ha)
  obtain ⟨j, _, rfl⟩ := List.mem_map.mp hb
  have hij : i = j := Fin.le_antisymm (of_decide_eq_true hab) (of_decide_eq_true hba)
  rw [hij]

theorem collect_eq_map (entries : List Path) (dealing : Dealing entries.length) :
    collect env root entries dealing = entries.map (reportAlone env root) := by
  have hreports : dealing.hands.flatMap (reports env root entries) =
      dealing.hands.flatten.map fun i => (i, reportAlone env root (entries.get i)) := by
    rw [funext (reports_eq_map env root entries), List.flatMap_def, ← List.map_flatten]
  calc collect env root entries dealing
      = ((List.finRange entries.length).map fun i =>
          (i, reportAlone env root (entries.get i))).map (·.2) := by
        rw [collect, hreports, mergeSort_map_of_perm _ dealing.once]
    _ = ((List.finRange entries.length).map entries.get).map (reportAlone env root) := by
        rw [List.map_map, List.map_map]
        rfl
    _ = entries.map (reportAlone env root) := by rw [List.map_get_finRange]

end Dealing

/-- A scan whose pattern is well formed succeeds.  Whatever the number of workers, it reports on
every entry as if it were alone, one report per entry and in their order; and however the
entries are dealt out, what the workers report comes to the report of the scan that goes
through all entries with one cache. -/
theorem run_eq_collect (config : ScanConfig) (entries : List Path)
    (hentries : config.entries env.files = .ok entries) :
    run env config = .ok ⟨entries.map (reportAlone env config.root)⟩ ∧
      ∀ (jobs : Nat) (dealing : Dealing entries.length), jobs ≤ 1 →
        run env { config with jobs := jobs } =
          .ok ⟨dealing.collect env config.root entries⟩ := by
  have hrun : ∀ jobs, run env { config with jobs := jobs } =
      .ok ⟨entries.map (reportAlone env config.root)⟩ := by
    intro jobs
    rw [run_eq_map, entries_with_jobs, hentries, Except.map]
  refine ⟨hrun config.jobs, fun jobs dealing _ => ?_⟩
  rw [hrun jobs, dealing.collect_eq_map]

end Workers

/-! ### A team

Three entries: the second takes the type of its props from the first, the third cannot be
read. -/

namespace Team

open Sample

def owner : String := "export default class X extends C<P> {} interface P { x }"

def borrower : String := "import { P } from './a'; export default class Y extends C<P> {}"

/-- A component whose prop type is `P`. -/
def component (start : Nat) : Concrete :=
  rule "export_statement" start (start + 38) []
    [ token "export" start (start + 6),
      token "default" (start + 7) (start + 14),
      rule "class_declaration" (start + 15) (start + 38) ["declaration"]
        [ rule "type_identifier" (start + 21) (start + 22) ["name"] [],
          rule "class_heritage" (start + 23) (start + 35) []
            [ rule "extends_clause" (start + 23) (start + 35) []
                [ rule "identifier" (start + 31) (start + 32) ["value"] [],
                  rule "type_arguments" (start + 32) (start + 35) ["type_arguments"]
                    [rule "type_identifier" (start + 33) (start + 34) [] []] ] ] ] ]

def ownerTree : Concrete :=
  rule "program" 0 56 []
    [ component 0,
      declaration 39 56 [rule "interface_body" 51 56 ["body"] [member 53]] ]

def borrowerTree : Concrete :=
  rule "program" 0 63 []
    [ rule "import_statement" 0 24 []
        [ rule "import_clause" 7 12 []
            [ rule "named_imports" 7 12 []
                [rule "import_specifier" 9 10 [] [rule "identifier" 9 10 ["name"] []]] ],
          rule "string" 18 23 ["source"] [] ],
      component 25 ]

/-- The tree of a text that fits no rule. -/
def brokenTree : Concrete := .node ⟨"ERROR", ⟨0, 1⟩, true, true, false, true, []⟩ []

def env : Environment where
  files :=
    ⟨[ (["a.ts"], .file owner.toUTF8), (["b.ts"], .file borrower.toUTF8),
       (["c.ts"], .file "?".toUTF8) ], ⟨"/"⟩⟩
  concrete := fun _ source =>
    if source = owner then ownerTree else if source = borrower then borrowerTree else brokenTree

def config : ScanConfig := ⟨⟨"/"⟩, "*.ts", 2⟩

def entries : List Path := [⟨"/a.ts"⟩, ⟨"/b.ts"⟩, ⟨"/c.ts"⟩]

/-- One worker has the entry that fails and then the first, another one has the second. -/
def dealing : Dealing entries.length where
  hands := [[⟨2, by decide⟩, ⟨0, by decide⟩], [⟨1, by decide⟩]]
  once := by decide

end Team

/-- The names in the root directory are in order already. -/
theorem Team.namesAt_root : Glob.namesAt Team.env.files ⟨"/"⟩ = ["a.ts", "b.ts", "c.ts"] := by
  have hresolve : Team.env.files.resolve? ⟨"/"⟩ = some [] := by decide +kernel
  have hsorted : ["a.ts", "b.ts", "c.ts"].Pairwise
      (fun a b => FileSystem.nameLe a b = true) := by decide +kernel
  rw [Glob.namesAt, hresolve]
  exact List.mergeSort_of_pairwise hsorted

theorem Team.entries_config : Team.config.entries Team.env.files = .ok Team.entries := by
  have hplan : Glob.plan? ⟨Team.config.fullPattern⟩ = some
      ⟨⟨"/"⟩, [.fitting [.sequence, .char '.', .char 't', .char 's']], false⟩ := by rfl
  have hfollow : Glob.Step.follow Team.env.files ⟨"/"⟩
      (.fitting [.sequence, .char '.', .char 't', .char 's']) = Team.entries := by
    rw [Glob.Step.follow, Team.namesAt_root]
    decide +kernel
  refine entries_eq_of_search hplan ?_ (by decide +kernel) (by decide +kernel)
  simp [Glob.Plan.search, hfollow]

theorem run_eq_collect_team :
    Team.config.entries Team.env.files = .ok Team.entries ∧
      run Team.env { Team.config with jobs := 1 } =
        .ok ⟨Team.dealing.collect Team.env Team.config.root Team.entries⟩ ∧
      Team.dealing.collect Team.env Team.config.root Team.entries =
        [ ⟨"a.ts", .resolved ["x"]⟩, ⟨"b.ts", .resolved ["x"]⟩,
          ⟨"c.ts", .failed .parseError "failed to parse /c.ts at 1:0"⟩ ] := by
  refine ⟨Team.entries_config,
    (run_eq_collect Team.env Team.config Team.entries Team.entries_config).2 1 Team.dealing
      (by decide), ?_⟩
  rw [Dealing.collect_eq_map]
  decide +kernel

end Scan
end PropSurface
