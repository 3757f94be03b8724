import PropSurface.Proofs.FileSystem.Below
import PropSurface.Proofs.Scan.Dealing

/-!
# Paths in reports

The path that a report gives for an entry goes by the canonical paths of the entry and of the
root.  So it names the file that the entry leads to, wherever links lead it; and where no link is
followed between the root and the entry, it is the path of the entry below the root.

**Definitions.**
* `Scan.LinkFree`: no link is followed on the way from the root to an entry.
* `Scan.Inside`: an entry leads to a place below the one that the root leads to.

**Results.**
* `Scan.reportPath_of_inside`, `Scan.reportPath_of_outside`: the two kinds of report paths.
* `Scan.report_paths`: what report paths say about the entries of a scan.
* `Scan.report_paths_alias`: a link below the root makes two entries share a report path.
-/

namespace PropSurface
namespace Scan

open FileSystem PropSurface.Path

variable {fs : FileSystem} {root entry other : Path} {top place : Place} {names : List String}

/-- No link is followed on the way from where the root leads to, if it leads anywhere, on to the
entry. -/
def LinkFree (fs : FileSystem) (root entry : Path) : Prop :=
  ∀ top, fs.follow? root = some top →
    (fs.walk (fun _ => none) 0 ((rest root entry).map Component.text) top).isSome

/-- The entry leads to a place below the one that the root leads to. -/
def Inside (fs : FileSystem) (root entry : Path) : Prop :=
  ∃ top names, names ≠ [] ∧ fs.follow? root = some top ∧
    fs.follow? entry = some (names ++ top)

/-! ### One entry -/

theorem relative_of_follow? (hroot : fs.follow? root = some top)
    (hentry : fs.follow? entry = some place) :
    fs.relative entry root =
      match within? (pathOf top) (pathOf place) with
      | some rest => .ok rest.text
      | none => .error ⟨pathOf place, pathOf top⟩ := by
  rw [relative, canonicalize?, canonicalize?, hroot, hentry]
  rfl

/-- The report path of an entry below the root is made up of the names in between. -/
theorem reportPath_of_inside (hroot : fs.follow? root = some top)
    (hentry : fs.follow? entry = some (names ++ top)) (hne : names ≠ []) :
    reportPath fs root entry = "/".intercalate names.reverse := by
  rw [reportPath, relative_of_follow? hroot hentry, within?_pathOf (direct_of_follow? hentry) hne]

/-- The report path of any other entry is the path itself. -/
theorem reportPath_of_outside (hroot : fs.follow? root = some top)
    (hentry : fs.follow? entry = some place) (hnot : ¬ top <:+ place) :
    reportPath fs root entry = entry.text := by
  rw [reportPath, relative_of_follow? hroot hentry,
    within?_pathOf_eq_none (direct_of_follow? hentry) (direct_of_follow? hroot) hnot]

theorem Inside.exists_names (h : Inside fs root entry) (hroot : fs.follow? root = some top) :
    ∃ names, names ≠ [] ∧ fs.follow? entry = some (names ++ top) ∧ (∀ s ∈ names, IsName s) ∧
      reportPath fs root entry = "/".intercalate names.reverse := by
  obtain ⟨top', names, hne, hroot', hentry⟩ := h
  obtain rfl : top' = top := Option.some_inj.mp (hroot'.symm.trans hroot)
  exact ⟨names, hne, hentry,
    fun s hs => (direct_of_follow? hentry).isName s (List.mem_append_left _ hs),
    reportPath_of_inside hroot hentry hne⟩

/-- An entry that is reached without links lies inside, under the names that it has below the
root. -/
theorem LinkFree.follow?_eq (h : LinkFree fs root entry) (hunder : root.Under entry)
    (hbelow : below? [] (rest root entry) = some names)
    (hentry : fs.follow? entry = some place) :
    ∃ top, fs.follow? root = some top ∧ place = names ++ top := by
  obtain ⟨top, hroot, -, ⟨links, hleads⟩, -⟩ := exists_top hunder hentry
  obtain ⟨place', hwalk⟩ := Option.isSome_iff_exists.mp (h top hroot)
  obtain ⟨i, hi, hfree⟩ := walk_eq_some_iff.mp hwalk
  obtain rfl : i = 0 := Nat.le_zero.mp hi
  refine ⟨top, hroot, ?_⟩
  rw [hleads.unique hfree]
  have hinner : ∀ c ∈ rest root entry, c.Inner := fun c hc =>
    inner_of_mem_steps (List.mem_of_mem_drop hc)
  exact Leads.eq_of_below? hinner hbelow hfree

/-- The report path of an entry that is reached without links leads from the root to the
entry. -/
theorem LinkFree.normalize_join (h : LinkFree fs root entry) (hunder : root.Under entry)
    (hfile : fs.isFile entry = true) :
    (root.join ⟨reportPath fs root entry⟩).normalize = entry.normalize := by
  obtain ⟨place, bytes, hentry, -⟩ := exists_follow?_of_isFile hfile
  obtain ⟨names, hne, hbelow⟩ := hunder.descends
  obtain ⟨top, hroot, rfl⟩ := h.follow?_eq hunder hbelow hentry
  have hnames : ∀ s ∈ names, IsName s := fun s hs =>
    (direct_of_follow? hentry).isName s (List.mem_append_left _ hs)
  apply normalize_eq_of_stack
  rw [reportPath_of_inside hroot hentry hne, stack_join_names root hnames hne,
    hunder.stack_eq hbelow]

/-- The report path of an entry inside the root leads from the root to the same file. -/
theorem Inside.canonicalize?_join (h : Inside fs root entry) (hunder : root.Under entry)
    (hfile : fs.isFile entry = true) :
    fs.canonicalize? (root.join ⟨reportPath fs root entry⟩) = fs.canonicalize? entry := by
  obtain ⟨place, bytes, hentry, hbytes⟩ := exists_follow?_of_isFile hfile
  obtain ⟨top, hroot, -, -, hjoin⟩ := exists_top hunder hentry
  obtain ⟨names, hne, hentry', hnames, hpath⟩ := h.exists_names hroot
  obtain rfl := Option.some_inj.mp (hentry'.symm.trans hentry)
  have hdown :
      fs.Leads top (Path.mk ("/".intercalate names.reverse)).segments 0 (names ++ top) := by
    rw [segments_names hnames hne]
    exact leads_down (direct_of_follow? hentry) hbytes (fun _ h => by cases h)
  rw [canonicalize?, canonicalize?, hentry, hpath, hjoin _ _ (isAbsolute_names hnames hne) hdown]

theorem canonicalize?_eq_iff {place' : Place} (hentry : fs.follow? entry = some place)
    (hother : fs.follow? other = some place') :
    fs.canonicalize? entry = fs.canonicalize? other ↔ place = place' := by
  rw [canonicalize?, canonicalize?, hentry, hother, Option.map_some, Option.map_some,
    Option.some_inj, (direct_of_follow? hentry).pathOf_inj (direct_of_follow? hother)]

/-- Two entries inside the root have the same report path exactly if they lead to the same
file. -/
theorem Inside.reportPath_eq_iff (h : Inside fs root entry) (h' : Inside fs root other) :
    reportPath fs root entry = reportPath fs root other ↔
      fs.canonicalize? entry = fs.canonicalize? other := by
  obtain ⟨top, -, -, hroot, -⟩ := id h
  obtain ⟨names, hne, hentry, hnames, hpath⟩ := h.exists_names hroot
  obtain ⟨names', hne', hother, hnames', hpath'⟩ := h'.exists_names hroot
  rw [hpath, hpath', canonicalize?_eq_iff hentry hother, List.append_left_inj]
  constructor
  · intro heq
    have hsegments := congrArg (fun s => (Path.mk s).segments) heq
    simp only [segments_names hnames hne, segments_names hnames' hne'] at hsegments
    exact List.reverse_inj.mp hsegments
  · intro heq
    rw [heq]

/-- The report path of an entry inside the root is relative. -/
theorem Inside.isAbsolute_reportPath (h : Inside fs root entry) :
    (Path.mk (reportPath fs root entry)).isAbsolute = false := by
  obtain ⟨top, -, -, hroot, -⟩ := id h
  obtain ⟨names, hne, -, hnames, hpath⟩ := h.exists_names hroot
  rw [hpath]
  exact isAbsolute_names hnames hne

/-- An entry that is not inside the root is reported as it is written. -/
theorem reportPath_of_not_inside (h : ¬ Inside fs root entry) (hunder : root.Under entry)
    (hfile : fs.isFile entry = true) : reportPath fs root entry = entry.text := by
  obtain ⟨place, bytes, hentry, hbytes⟩ := exists_follow?_of_isFile hfile
  obtain ⟨top, hroot, hdirectory, -, -⟩ := exists_top hunder hentry
  refine reportPath_of_outside hroot hentry ?_
  rintro ⟨names, rfl⟩
  refine h ⟨top, names, ?_, hroot, hentry⟩
  rintro rfl
  rw [List.nil_append, entry?_of_hasDirectory hdirectory] at hbytes
  cases hbytes

/-- With an absolute root, the report path of an entry inside is relative, and that of another one
is not. -/
theorem Inside.reportPath_ne (h : Inside fs root entry) (hroot : root.isAbsolute = true)
    (h' : ¬ Inside fs root other) (hunder : root.Under other) (hfile : fs.isFile other = true) :
    reportPath fs root entry ≠ reportPath fs root other := by
  intro heq
  have hrelative := h.isAbsolute_reportPath
  rw [heq, reportPath_of_not_inside h' hunder hfile] at hrelative
  have habsolute : other.isAbsolute = true := by rw [hunder.absolute, hroot]
  exact absurd (hrelative.symm.trans habsolute) (by decide)

/-- With an absolute root, two entries have the same report path only if they lead to the same
file. -/
theorem canonicalize?_eq_of_reportPath_eq (hroot : root.isAbsolute = true)
    (hunder : root.Under entry) (hunder' : root.Under other) (hfile : fs.isFile entry = true)
    (hfile' : fs.isFile other = true) (heq : reportPath fs root entry = reportPath fs root other) :
    fs.canonicalize? entry = fs.canonicalize? other := by
  by_cases h : Inside fs root entry
  · by_cases h' : Inside fs root other
    · exact (h.reportPath_eq_iff h').mp heq
    · exact absurd heq (h.reportPath_ne hroot h' hunder' hfile')
  · by_cases h' : Inside fs root other
    · exact absurd heq.symm (h'.reportPath_ne hroot h hunder hfile)
    · rw [reportPath_of_not_inside h hunder hfile,
        reportPath_of_not_inside h' hunder' hfile'] at heq
      rw [show entry = other from congrArg Path.mk heq]

/-! ### The empty root -/

theorem follow?_eq_none_of_text_eq_empty (hroot : root.text = "") : fs.follow? root = none := by
  rw [follow?, if_pos hroot]

theorem linkFree_of_text_eq_empty (hroot : root.text = "") : LinkFree fs root entry := by
  intro top htop
  rw [follow?_eq_none_of_text_eq_empty hroot] at htop
  cases htop

theorem Inside.text_ne_empty (h : Inside fs root entry) : root.text ≠ "" := by
  intro hroot
  obtain ⟨top, -, -, htop, -⟩ := h
  rw [follow?_eq_none_of_text_eq_empty hroot] at htop
  cases htop

/-- The empty path leads nowhere, so an empty root and an entry are compared as they are written. -/
theorem normalize_join_of_text_eq_empty (hroot : root.text = "") (entry : Path) :
    (root.join ⟨reportPath fs root entry⟩).normalize = entry.normalize := by
  obtain ⟨q, hwithin, hnormal⟩ := exists_within?_of_text_eq_empty hroot entry
  have hnone : fs.canonicalize? root = none := by
    rw [canonicalize?, follow?_eq_none_of_text_eq_empty hroot, Option.map_none]
  have hrelative : fs.relative entry root = .ok q.text := by
    rw [relative, hnone]
    cases fs.canonicalize? entry with
    | none => simp only [hwithin]
    | some canonical => simp only [hwithin]
  rw [reportPath, hrelative, hnormal]

/-! ### All entries -/

theorem isFile_of_mem_entries {config : ScanConfig} {entries : List Path}
    (hentries : config.entries fs = .ok entries) (hmem : entry ∈ entries) :
    fs.isFile entry = true := by
  unfold ScanConfig.entries at hentries
  split at hentries
  · cases hentries
  · cases hentries
    exact (List.mem_filter.mp ((List.mergeSort_perm _ _).mem_iff.mp hmem)).2

/-- A scan whose entries lie below its root, as all do if it is empty, reports on each of them under
a path.  The path of an entry that is reached from the root without links leads there from the root
as it is written, so two such entries share a path only if they are the same one.  Links are taken
into account by canonical paths: the path of an entry inside the root leads from the root to the
same file, two of these entries share a path exactly if they lead to the same file, and an entry
that a link takes out of the root keeps the path it has.  If the root is absolute, no entries of
different files share a path. -/
theorem report_paths (env : Environment) (config : ScanConfig) (entries : List Path)
    (hentries : config.entries env.files = .ok entries)
    (hunder : config.root.text = "" ∨ ∀ e ∈ entries, config.root.Under e) :
    let fs := env.files
    let root := config.root
    let path := reportPath fs root
    (∃ report, run env config = .ok report ∧ report.files.map (·.path) = entries.map path) ∧
      (∀ e ∈ entries, LinkFree fs root e → (root.join ⟨path e⟩).normalize = e.normalize) ∧
      (∀ e ∈ entries, Inside fs root e →
        fs.canonicalize? (root.join ⟨path e⟩) = fs.canonicalize? e) ∧
      (∀ e ∈ entries, ¬ LinkFree fs root e → ¬ Inside fs root e → path e = e.text) ∧
      ∀ e ∈ entries, ∀ e' ∈ entries,
        (LinkFree fs root e → LinkFree fs root e' → path e = path e' →
          e.normalize = e'.normalize) ∧
        (Inside fs root e → Inside fs root e' →
          (path e = path e' ↔ fs.canonicalize? e = fs.canonicalize? e')) ∧
        (root.isAbsolute = true → path e = path e' → fs.canonicalize? e = fs.canonicalize? e') := by
  intro fs root path
  have hfile : ∀ e ∈ entries, fs.isFile e = true := fun e he => isFile_of_mem_entries hentries he
  have hbelow : root.text ≠ "" → ∀ e ∈ entries, root.Under e := hunder.resolve_left
  have hfree : ∀ e ∈ entries, LinkFree fs root e →
      (root.join ⟨path e⟩).normalize = e.normalize := by
    intro e he h
    rcases hunder with hempty | hunder
    · exact normalize_join_of_text_eq_empty hempty e
    · exact h.normalize_join (hunder e he) (hfile e he)
  refine ⟨⟨⟨entries.map (reportAlone env root)⟩, ?_, ?_⟩, hfree, ?_, ?_, ?_⟩
  · rw [run_eq_map, hentries]
    rfl
  · rw [List.map_map]
    rfl
  · exact fun e he h => h.canonicalize?_join (hbelow h.text_ne_empty e he) (hfile e he)
  · intro e he hlinks h
    have hne : root.text ≠ "" := fun hempty => hlinks (linkFree_of_text_eq_empty hempty)
    exact reportPath_of_not_inside h (hbelow hne e he) (hfile e he)
  · intro e he e' he'
    refine ⟨fun h h' heq => ?_, Inside.reportPath_eq_iff, fun hroot heq => ?_⟩
    · rw [← hfree e he h, ← hfree e' he' h', heq]
    · have hne : root.text ≠ "" := by
        intro hempty
        rw [isAbsolute, hempty] at hroot
        exact absurd hroot (by decide)
      exact canonicalize?_eq_of_reportPath_eq hroot (hbelow hne e he) (hbelow hne e' he')
        (hfile e he) (hfile e' he') heq

/-! ### A link below the root

One of two components is a link to the other. -/

namespace Alias

def files : FileSystem :=
  ⟨[ (["proj"], .directory), (["components", "proj"], .directory),
      (["badge", "components", "proj"], .link ⟨"/proj/components/button"⟩),
      (["button", "components", "proj"], .directory),
      (["index.tsx", "button", "components", "proj"], .file Team.owner.toUTF8) ], ⟨"/"⟩⟩

def env : Environment := { files := files, concrete := Team.env.concrete }

def config : ScanConfig := { ScanConfig.standard with root := ⟨"/proj"⟩ }

def badge : Path := ⟨"/proj/components/badge/index.tsx"⟩

def button : Path := ⟨"/proj/components/button/index.tsx"⟩

end Alias

/-- The names in the directory are in order already. -/
theorem Alias.namesAt_components :
    Glob.namesAt Alias.files ⟨"/proj/components"⟩ = ["badge", "button"] := by
  have hresolve : Alias.files.resolve? ⟨"/proj/components"⟩ = some ["components", "proj"] := by
    decide +kernel
  have hsorted : ["badge", "button"].Pairwise
      (fun a b => FileSystem.nameLe a b = true) := by decide +kernel
  rw [Glob.namesAt, hresolve]
  exact List.mergeSort_of_pairwise hsorted

/-- Both ways into the directory of the component find its one file. -/
theorem Alias.follow_component (p entry : Path) (hdirectory : Alias.files.isDirectory p = true)
    (hresolve : Alias.files.resolve? p = some ["button", "components", "proj"])
    (hentry : Glob.childPath p "index.tsx" = entry) :
    Glob.Step.follow Alias.files p (.fitting ("index.ts".toList.map .char ++ [.sequence])) =
      [entry] := by
  have hnames : Glob.namesAt Alias.files p = ["index.tsx"] := by
    rw [Glob.namesAt, hresolve]
    exact List.mergeSort_singleton _
  have hfits : ["index.tsx"].filter (Glob.fits ("index.ts".toList.map .char ++ [.sequence])) =
      ["index.tsx"] := by decide +kernel
  rw [Glob.Step.follow, if_pos hdirectory, hnames, hfits, ← hentry]
  rfl

theorem Alias.entries_config :
    Alias.config.entries Alias.env.files = .ok [Alias.badge, Alias.button] := by
  have hplan : Glob.plan? ⟨Alias.config.fullPattern⟩ = some
      ⟨⟨"/"⟩, [.plain "proj", .plain "components", .fitting [.sequence],
        .fitting ("index.ts".toList.map .char ++ [.sequence])], false⟩ := by rfl
  have hroot : Glob.Step.follow Alias.files ⟨"/"⟩ (.plain "proj") = [⟨"/proj"⟩] := by
    decide +kernel
  have hplain : Glob.Step.follow Alias.files ⟨"/proj"⟩ (.plain "components") =
      [⟨"/proj/components"⟩] := by decide +kernel
  have hcomponents : Glob.Step.follow Alias.files ⟨"/proj/components"⟩ (.fitting [.sequence]) =
      [⟨"/proj/components/badge"⟩, ⟨"/proj/components/button"⟩] := by
    rw [Glob.Step.follow, Alias.namesAt_components]
    decide +kernel
  have hbadge := Alias.follow_component ⟨"/proj/components/badge"⟩ Alias.badge
    (by decide +kernel) (by decide +kernel) (by decide +kernel)
  have hbutton := Alias.follow_component ⟨"/proj/components/button"⟩ Alias.button
    (by decide +kernel) (by decide +kernel) (by decide +kernel)
  refine entries_eq_of_search hplan ?_ (by decide +kernel) (by decide +kernel)
  simp only [Glob.Plan.search, List.foldl_cons, List.foldl_nil, List.flatMap_cons,
    List.flatMap_nil, List.append_nil, List.singleton_append, hroot, hplain, hcomponents, hbadge,
    hbutton, show Alias.env.files = Alias.files from rfl]
  simp

theorem Alias.under : ∀ e ∈ [Alias.badge, Alias.button], Alias.config.root.Under e := by
  have hbadge : Alias.config.root.Under Alias.badge :=
    ⟨by decide, by decide, ⟨[.name "components", .name "badge", .name "index.tsx"], by decide⟩,
      ["index.tsx", "badge", "components"], by decide, by decide⟩
  have hbutton : Alias.config.root.Under Alias.button :=
    ⟨by decide, by decide, ⟨[.name "components", .name "button", .name "index.tsx"], by decide⟩,
      ["index.tsx", "button", "components"], by decide, by decide⟩
  simp [hbadge, hbutton]

/-- The entry below the directory itself is reached without links, so its path leads to it; the one
below the link leads to the same file, so it has the same path. -/
theorem report_paths_button :
    (Alias.config.root.join ⟨reportPath Alias.files Alias.config.root Alias.button⟩).normalize =
        Alias.button.normalize ∧
      reportPath Alias.files Alias.config.root Alias.badge =
        reportPath Alias.files Alias.config.root Alias.button := by
  obtain ⟨-, hfree, -, -, hpairs⟩ :=
    report_paths Alias.env Alias.config _ Alias.entries_config (.inr Alias.under)
  have hroot : Alias.files.follow? Alias.config.root = some ["proj"] := by decide +kernel
  have hbadge : Inside Alias.files Alias.config.root Alias.badge :=
    ⟨["proj"], ["index.tsx", "button", "components"], by decide, hroot, by decide +kernel⟩
  have hbutton : Inside Alias.files Alias.config.root Alias.button :=
    ⟨["proj"], ["index.tsx", "button", "components"], by decide, hroot, by decide +kernel⟩
  have hlinks : LinkFree Alias.files Alias.config.root Alias.button := by
    intro top htop
    obtain rfl : ["proj"] = top := Option.some_inj.mp (hroot.symm.trans htop)
    decide +kernel
  refine ⟨hfree Alias.button (by simp) hlinks, ?_⟩
  exact ((hpairs Alias.badge (by simp) Alias.button (by simp)).2.1 hbadge hbutton).mpr
    (by decide +kernel)

/-- The two entries share a report path, which leads to one of them only. -/
theorem report_paths_alias :
    Alias.config.entries Alias.env.files = .ok [Alias.badge, Alias.button] ∧
      (∀ e ∈ [Alias.badge, Alias.button], Alias.config.root.Under e) ∧
      (∃ report, run Alias.env Alias.config = .ok report ∧
        report.files.map (·.path) =
          ["components/button/index.tsx", "components/button/index.tsx"]) ∧
      (Alias.config.root.join ⟨"components/button/index.tsx"⟩).normalize ≠
        Alias.badge.normalize := by
  have hrun : run Alias.env Alias.config = .ok
      ⟨[Alias.badge, Alias.button].map (reportAlone Alias.env Alias.config.root)⟩ := by
    rw [run_eq_map, Alias.entries_config, Except.map]
  have hbadge : reportPath Alias.env.files Alias.config.root Alias.badge =
      "components/button/index.tsx" := by decide +kernel
  have hbutton : reportPath Alias.env.files Alias.config.root Alias.button =
      "components/button/index.tsx" := by decide +kernel
  refine ⟨Alias.entries_config, Alias.under, ⟨_, hrun, ?_⟩, by decide +kernel⟩
  simp only [List.map_cons, List.map_nil, reportAlone, hbadge, hbutton]

end Scan
end PropSurface
