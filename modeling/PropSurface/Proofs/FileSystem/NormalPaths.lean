import PropSurface.Proofs.FileSystem.Canonical
import PropSurface.Proofs.Path.Length

/-!
# Following normal paths

Where no link is followed on the way, the normal form of a path leads to the same place as the
path itself.

**Definitions.**
* `FileSystem.LinksLeadToFiles`: no link leads to a directory.

**Results.**
* `FileSystem.Leads.normal`: segments that lead to a place through no link do so in normal form.
* `FileSystem.follow?_normalize`: if no link leads to a directory, a path to a file leads to that
  file in normal form.
-/

namespace PropSurface

namespace FileSystem

open PropSurface.Path

variable {fs : FileSystem} {base here next place : Place} {segments : List String} {links : Nat}

/-! ### Without links -/

/-- Where a component leads to if nothing is a link. -/
def advance (here : Place) : Component → Place
  | .parent => here.tail
  | .name s => s :: here
  | _ => here

theorem leads_append_zero_iff {xs ys : List String} :
    fs.Leads here (xs ++ ys) 0 place ↔
      ∃ between, fs.Leads here xs 0 between ∧ fs.Leads between ys 0 place := by
  rw [leads_append_iff]
  constructor
  · rintro ⟨i, j, between, hlinks, hxs, hys⟩
    obtain ⟨rfl, rfl⟩ : i = 0 ∧ j = 0 := by omega
    exact ⟨between, hxs, hys⟩
  · rintro ⟨between, hxs, hys⟩
    exact ⟨0, 0, between, rfl, hxs, hys⟩

/-- Where one segment leads to. -/
theorem Leads.eq_advance {s : String} (h : fs.Leads here [s] 0 next) :
    next = (Component.ofSegment? s).elim here (advance here) := by
  cases h with
  | stay hdirectory hs h =>
      cases h
      rw [Component.ofSegment?, if_pos hs]
      rfl
  | up hdirectory h =>
      cases h
      rfl
  | down hdirectory hs hentry hlink h =>
      cases h
      rw [Component.ofSegment?, if_neg (not_or.mpr ⟨hs.1, hs.2.1⟩), if_neg hs.2.2]
      rfl

theorem Leads.eq_advance_of_inner {c : Component} (hc : c.Inner)
    (h : fs.Leads here [c.text] 0 next) : next = advance here c := by
  rw [h.eq_advance, hc.ofSegment?_text]
  rfl

/-- One more component on a stack leads on from where the stack leads to. -/
theorem Leads.pushNormal {absolute : Bool} {stack : List Component}
    (hstack : Reduced absolute stack) (hbase : absolute = true → base = []) {c : Component}
    (hc : c.Inner) (h : fs.Leads base (spell stack) 0 here)
    (hstep : fs.Leads here [c.text] 0 next) :
    fs.Leads base (spell (Path.pushNormal stack c)) 0 next := by
  have hnext := hstep.eq_advance_of_inner hc
  cases c with
  | root => exact hc.elim
  | current => exact hc.elim
  | name s =>
      rw [Path.pushNormal, spell_cons]
      exact h.append hstep
  | parent =>
      cases hstack with
      | root =>
          -- Nothing is above the root.
          have hhere : here = base := h.eq_advance
          rw [hnext, advance, hhere, hbase rfl]
          rw [hhere, hbase rfl] at h
          exact h
      | parents n =>
          have hpush : Path.pushNormal (List.replicate n .parent) .parent =
              .parent :: List.replicate n .parent := by
            cases n with
            | zero => rfl
            | succ n => rfl
          rw [hpush, spell_cons]
          exact h.append hstep
      | name hs hstack =>
          rw [spell_cons] at h
          obtain ⟨between, hbetween, hname⟩ := leads_append_zero_iff.mp h
          have hhere := hname.eq_advance_of_inner (c := .name _) hs
          rw [hnext, hhere]
          exact hbetween

/-- Segments that lead to a place through no link do so in normal form. -/
theorem Leads.normal {absolute : Bool} {stack : List Component} (hstack : Reduced absolute stack)
    (hbase : absolute = true → base = []) (hslash : ∀ s ∈ segments, '/' ∉ s.toList)
    (h : fs.Leads base (spell stack) 0 here) (hsegments : fs.Leads here segments 0 place) :
    fs.Leads base (spell ((segments.filterMap Component.ofSegment?).foldl Path.pushNormal stack))
      0 place := by
  induction segments generalizing stack here with
  | nil =>
      cases hsegments
      exact h
  | cons s segments ih =>
      obtain ⟨between, hs, hsegments⟩ :=
        leads_append_zero_iff.mp (show fs.Leads here ([s] ++ segments) 0 place from hsegments)
      have hrest : ∀ t ∈ segments, '/' ∉ t.toList :=
        fun t ht => hslash t (List.mem_cons_of_mem s ht)
      cases hc : Component.ofSegment? s with
      | none =>
          have hbetween : between = here := by rw [hs.eq_advance, hc]; rfl
          rw [List.filterMap_cons_none hc]
          exact ih hstack hrest (hbetween ▸ h) hsegments
      | some c =>
          have hinner := Component.inner_of_ofSegment? (hslash s List.mem_cons_self) hc
          rw [← Component.text_of_ofSegment? hc] at hs
          rw [List.filterMap_cons_some hc, List.foldl_cons]
          exact ih (hstack.pushNormal (.inr hinner)) hrest (h.pushNormal hstack hbase hinner hs)
            hsegments

/-- Nothing is stepped over before the first component. -/
theorem leads_bottom {p : Path} (hbase : p.isAbsolute = true → base = []) :
    fs.Leads base (spell p.bottom) 0 base := by
  unfold bottom
  split_ifs with habsolute
  · rw [hbase habsolute]
    exact .stay rfl (.inl rfl) .here
  · exact .here

/-! ### Where paths start -/

/-- Where the segments of a path start, once the links on the way there are followed: at the root
if it is absolute, and otherwise at the start of the file system. -/
def Departs (fs : FileSystem) (absolute : Bool) (links : Nat) (base : Place) : Prop :=
  ∃ front : List String, fs.Leads [] front links base ∧ (absolute = true → base = []) ∧
    ∀ p : Path, p.isAbsolute = absolute → fs.route p = front ++ p.segments

theorem exists_route (fs : FileSystem) (absolute : Bool) :
    ∃ front : List String, (absolute = true → front = []) ∧
      ∀ p : Path, p.isAbsolute = absolute → fs.route p = front ++ p.segments := by
  cases absolute with
  | true =>
      refine ⟨[], fun _ => rfl, fun p hp => ?_⟩
      rw [route, Path.join, if_pos hp, List.nil_append]
  | false =>
      obtain ⟨front, -, hfront⟩ := fs.start.exists_segments_join
      exact ⟨front, by simp, hfront⟩

theorem exists_departs {p : Path} (h : fs.follow? p = some place) :
    ∃ i j base, fs.Departs p.isAbsolute i base ∧ fs.Direct base ∧
      fs.Leads base p.segments j place ∧ i + j ≤ maxLinks := by
  obtain ⟨-, links, hlinks, hleads⟩ := follow?_eq_some_iff.mp h
  obtain ⟨front, habsolute, hroute⟩ := fs.exists_route p.isAbsolute
  have hslash : ∀ s ∈ front, '/' ∉ s.toList := by
    intro s hs
    have hmem : s ∈ fs.route p := (hroute p rfl).symm ▸ List.mem_append_left _ hs
    exact slash_not_mem_of_mem_segments hmem
  rw [hroute p rfl] at hleads
  obtain ⟨i, j, base, rfl, hfront, hsegments⟩ := leads_append_iff.mp hleads
  refine ⟨i, j, base, ⟨front, hfront, fun hp => ?_, hroute⟩, hfront.direct trivial hslash,
    hsegments, hlinks⟩
  rw [habsolute hp] at hfront
  cases hfront
  rfl

theorem Departs.follow? {absolute : Bool} {i j : Nat} (h : fs.Departs absolute i base) {p : Path}
    (hp : p.isAbsolute = absolute) (hne : p.text ≠ "") (hleads : fs.Leads base p.segments j place)
    (hlinks : i + j ≤ maxLinks) : fs.follow? p = some place := by
  obtain ⟨front, hfront, -, hroute⟩ := h
  refine follow?_eq_some_iff.mpr ⟨hne, i + j, hlinks, ?_⟩
  rw [hroute p hp]
  exact hfront.append hleads

/-! ### Links to files -/

/-- No link leads to a directory. -/
def LinksLeadToFiles (fs : FileSystem) : Prop :=
  ∀ (here : Place) (s : String) (target : Path) (place : Place),
    fs.entry? (s :: here) = some (.link target) →
      fs.walk (fun _ => none) maxLinks [s] here = some place → fs.hasDirectory place = false

/-- Where links lead to files, the way to a directory goes through none. -/
theorem LinksLeadToFiles.links_eq_zero (hfiles : fs.LinksLeadToFiles)
    (h : fs.Leads here segments links place) (hplace : fs.hasDirectory place = true)
    (hlinks : links ≤ maxLinks) : links = 0 := by
  induction h with
  | here => rfl
  | stay hdirectory hs h ih => exact ih hplace hlinks
  | up hdirectory h ih => exact ih hplace hlinks
  | down hdirectory hs hentry hlink h ih => exact ih hplace hlinks
  | @link here between _ s _ i j target hdirectory hs hentry htarget h _ _ =>
      have hwalk : fs.walk (fun _ => none) maxLinks [s] here = some between :=
        walk_eq_some_iff.mpr ⟨i + 0 + 1, by omega, .link hdirectory hs hentry htarget .here⟩
      have hnot := hfiles here s target between hentry hwalk
      rw [h.hasDirectory hplace] at hnot
      cases hnot

/-- The last segment of a path to a file is a name. -/
theorem Leads.ofSegment?_of_file {s : String} {bytes : ByteArray}
    (h : fs.Leads here [s] links place) (hhere : fs.Direct here)
    (hfile : fs.entry? place = some (.file bytes)) :
    Component.ofSegment? s = some (.name s) := by
  have hname : s ≠ "" ∧ s ≠ "." ∧ s ≠ ".." → Component.ofSegment? s = some (.name s) := by
    rintro ⟨hempty, hdot, hdots⟩
    rw [Component.ofSegment?, if_neg (not_or.mpr ⟨hempty, hdot⟩), if_neg hdots]
  cases h with
  | stay hdirectory hs h =>
      cases h
      rw [entry?_of_hasDirectory hdirectory] at hfile
      cases hfile
  | up hdirectory h =>
      cases h
      have htail : fs.hasDirectory here.tail = true := by
        cases here with
        | nil => rfl
        | cons t above => exact hhere.2.1
      rw [entry?_of_hasDirectory htail] at hfile
      cases hfile
  | down hdirectory hs hentry hlink h => exact hname hs
  | link hdirectory hs hentry htarget h => exact hname hs

/-- If no link leads to a directory, a path to a file leads to that file in normal form. -/
theorem LinksLeadToFiles.follow?_normalize (hfiles : fs.LinksLeadToFiles) {p : Path}
    {bytes : ByteArray} (h : fs.follow? p = some place)
    (hfile : fs.entry? place = some (.file bytes)) : fs.follow? p.normalize = some place := by
  obtain ⟨i, j, base, hdeparts, hdirect, hsegments, hlinks⟩ := exists_departs h
  have hbase : p.isAbsolute = true → base = [] := by
    obtain ⟨-, -, hbase, -⟩ := hdeparts
    exact hbase
  obtain ⟨dirs, s, hp⟩ : ∃ dirs s, p.segments = dirs ++ [s] := by
    have hne : p.segments ≠ [] := by simpa [segments] using splitSlashes_ne_nil p.text.toList
    exact ⟨_, _, (List.dropLast_concat_getLast hne).symm⟩
  have hslash : ∀ t ∈ dirs, '/' ∉ t.toList := fun t ht =>
    slash_not_mem_of_mem_segments (hp.symm ▸ List.mem_append_left _ ht)
  rw [hp] at hsegments
  obtain ⟨a, b, above, rfl, hdirs, hs⟩ := leads_append_iff.mp hsegments
  -- All but the last segment lead through directories, so none of them is a link.
  obtain rfl : a = 0 := hfiles.links_eq_zero hdirs hs.hasDirectory_of_cons (by omega)
  have hname := hs.ofSegment?_of_file (hdirs.direct hdirect hslash) hfile
  have hstack : p.stack = .name s ::
      (dirs.filterMap Component.ofSegment?).foldl Path.pushNormal p.bottom := by
    rw [stack_eq, steps, hp, List.filterMap_append, List.filterMap_cons_some hname,
      List.foldl_append]
    rfl
  have hnormal : fs.Leads base (spell p.stack) b place := by
    have hfirst := Leads.normal (reduced_bottom p) hbase hslash (leads_bottom hbase) hdirs
    rw [hstack, spell_cons]
    exact Nat.zero_add b ▸ hfirst.append hs
  have hnormalize : p.normalize.segments = spell p.stack :=
    segments_normalize (by simp [hstack]) (by simp [hstack])
  exact hdeparts.follow? (isAbsolute_normalize p) (text_normalize_ne_empty p)
    (hnormalize ▸ hnormal) (by omega)

end FileSystem
end PropSurface
