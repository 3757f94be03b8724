import PropSurface.Path.Within
import PropSurface.Proofs.FileSystem.NormalPaths

/-!
# Paths below a root

A path below a root leads there through the root.  If no link is followed on the rest of the way,
the names that the path has below the root are those of its place below the place of the root.

**Definitions.**
* `Path.below?`: the names that components come to, as long as they stay below where they start.
* `Path.Under`: a path lies below a root, as it is written.

**Results.**
* `Path.Under.stack_eq`: the normal form of a path below a root.
* `Path.exists_within?_of_text_eq_empty`: every path lies within the empty one.
* `FileSystem.exists_top`: a path below a root leads on from where the root leads to.
* `FileSystem.Leads.eq_of_below?`: where it leads to, if no link is followed from there on.
* `FileSystem.within?_pathOf`: the part of a canonical path below another one.
-/

namespace PropSurface

namespace Path

variable {root p : Path} {names : List String}

/-- The names, last one first, that components come to from others.  They may take back each
other, but not go up above where all of them start. -/
def below? : List String → List Component → Option (List String)
  | names, [] => some names
  | _, .root :: _ => none
  | names, .current :: cs => below? names cs
  | [], .parent :: _ => none
  | _ :: names, .parent :: cs => below? names cs
  | names, .name s :: cs => below? (s :: names) cs

/-- The components that a path has behind those of another one. -/
def rest (root p : Path) : List Component := p.steps.drop root.steps.length

/-- A path lies below a root: behind the components of the root it has others, which never go up
above the root and come to some name.  The empty path leads nowhere, so it is no root here. -/
structure Under (root p : Path) : Prop where
  named : root.text ≠ ""
  absolute : p.isAbsolute = root.isAbsolute
  starts : root.steps <+: p.steps
  descends : ∃ names, names ≠ [] ∧ below? [] (rest root p) = some names

theorem Under.steps_eq (h : root.Under p) : p.steps = root.steps ++ rest root p :=
  (List.prefix_iff_eq_append.mp h.starts).symm

theorem Under.rest_ne_nil (h : root.Under p) : rest root p ≠ [] := by
  obtain ⟨names, hne, hbelow⟩ := h.descends
  intro hnil
  rw [hnil] at hbelow
  exact hne (Option.some_inj.mp hbelow).symm

theorem foldl_pushNormal_of_below? (stack : List Component) {cs : List Component}
    {found : List String} (h : below? names cs = some found) :
    cs.foldl pushNormal (names.map .name ++ stack) = found.map .name ++ stack := by
  induction cs generalizing names with
  | nil =>
      cases h
      rfl
  | cons c cs ih =>
      cases c with
      | root => cases h
      | current => exact ih h
      | parent =>
          cases names with
          | nil => cases h
          | cons s names => exact ih h
      | name s => exact ih (show below? (s :: names) cs = some found from h)

/-- The normal form of a path below a root has the names that the path comes to. -/
theorem Under.stack_eq (h : root.Under p) (hnames : below? [] (rest root p) = some names) :
    p.stack = names.map .name ++ root.stack := by
  have hbottom : p.bottom = root.bottom := by rw [bottom, bottom, h.absolute]
  rw [Path.stack_eq p, h.steps_eq, List.foldl_append, hbottom, ← Path.stack_eq root]
  exact foldl_pushNormal_of_below? root.stack hnames

theorem below?_map_name (names found : List String) :
    below? names (found.map .name) = some (found.reverse ++ names) := by
  induction found generalizing names with
  | nil => rfl
  | cons s found ih => rw [List.map_cons, below?, ih, List.reverse_cons, List.append_assoc]; rfl

/-! ### Names as a path -/

theorem segments_names (h : ∀ s ∈ names, IsName s) (hne : names ≠ []) :
    (Path.mk ("/".intercalate names.reverse)).segments = names.reverse :=
  segments_intercalate (by simpa using hne) fun s hs => (h s (List.mem_reverse.mp hs)).2.2.2

theorem isAbsolute_names (h : ∀ s ∈ names, IsName s) (hne : names ≠ []) :
    (Path.mk ("/".intercalate names.reverse)).isAbsolute = false := by
  rw [Bool.eq_false_iff]
  intro habsolute
  obtain ⟨s, rest, hsegments⟩ := isAbsolute_iff_segments.mp habsolute
  rw [segments_names h hne] at hsegments
  have hempty : "" ∈ names := List.mem_reverse.mp (hsegments ▸ List.mem_cons_self)
  exact (h "" hempty).1 rfl

theorem stack_join_names (root : Path) (h : ∀ s ∈ names, IsName s) (hne : names ≠ []) :
    (root.join ⟨"/".intercalate names.reverse⟩).stack = names.map .name ++ root.stack := by
  have hsteps : (Path.mk ("/".intercalate names.reverse)).steps = names.reverse.map .name := by
    have hcomponents : ∀ c ∈ names.reverse.map Component.name, c.Inner := by
      intro c hc
      obtain ⟨s, hs, rfl⟩ := List.mem_map.mp hc
      exact h s (List.mem_reverse.mp hs)
    have htext : (names.reverse.map Component.name).map Component.text = names.reverse := by
      rw [List.map_map]
      exact List.map_id _
    rw [steps, segments_names h hne, ← filterMap_ofSegment?_text hcomponents, htext]
  rw [stack_join root (isAbsolute_names h hne), hsteps]
  have hbelow := foldl_pushNormal_of_below? root.stack (below?_map_name [] names.reverse)
  rwa [List.reverse_reverse, List.append_nil] at hbelow

/-! ### The empty path in front -/

theorem filterMap_trimEnd (ss : List (String × Option Component)) :
    (trimEnd ss).filterMap (·.2) = ss.filterMap (·.2) := by
  have hsplit : trimEnd ss ++ (ss.reverse.takeWhile (·.2.isNone)).reverse = ss := by
    rw [trimEnd, ← List.reverse_append, List.takeWhile_append_dropWhile, List.reverse_reverse]
  have hend : (ss.reverse.takeWhile (·.2.isNone)).reverse.filterMap (·.2) = [] := by
    rw [List.filterMap_eq_nil_iff]
    intro m hm
    have hnone : m.2.isNone = true :=
      List.all_eq_true.mp List.all_takeWhile m (List.mem_reverse.mp hm)
    exact Option.isNone_iff_eq_none.mp hnone
  conv_rhs => rw [← hsplit, List.filterMap_append, hend, List.append_nil]

theorem trimEnd_prefix (ss : List (String × Option Component)) : trimEnd ss <+: ss := by
  rw [trimEnd, ← List.reverse_suffix, List.reverse_reverse]
  exact List.dropWhile_suffix _

/-- The start of a path is absolute as the path is, if it is more than the root. -/
theorem isAbsolute_eq_of_prefix {q : Path} {s : String} {ss ts : List String}
    (hp : p.segments = s :: ss) (hq : q.segments = s :: ts) (hts : ts <+: ss)
    (hroot : ts = [] → p.isAbsolute = false) : q.isAbsolute = p.isAbsolute := by
  rw [Bool.eq_iff_iff]
  constructor
  · rw [isAbsolute_iff_segments, isAbsolute_iff_segments, hp, hq]
    rintro ⟨t, ts', heq⟩
    obtain ⟨rfl, rfl⟩ := List.cons.inj heq
    obtain ⟨us, rfl⟩ := hts
    exact ⟨t, ts' ++ us, rfl⟩
  · intro habsolute
    obtain ⟨t, ss', heq⟩ := isAbsolute_iff_segments.mp habsolute
    obtain ⟨rfl, -⟩ := List.cons.inj (hp.symm.trans heq)
    obtain ⟨t', ts', rfl⟩ := List.exists_cons_of_ne_nil
      (show ts ≠ [] from fun hnil => Bool.false_ne_true ((hroot hnil).symm.trans habsolute))
    exact isAbsolute_iff_segments.mpr ⟨t', ts', hq⟩

/-- Segments at the start of a path are read back from their text, unless there are none or the
root is the only one. -/
theorem marked_joinSegments {s : String} {first : Option Component}
    {rest : List (String × Option Component)} (h : (s, first) :: rest <+: p.marked)
    (hroot : rest = [] → first ≠ some .root) :
    (Path.mk (joinSegments ((s, first) :: rest))).marked = (s, first) :: rest := by
  obtain ⟨t, ss, hsegments⟩ := List.exists_cons_of_ne_nil
    (show p.segments ≠ [] from fun hnil => by simp [marked, hnil] at h)
  simp only [marked, hsegments, List.cons_prefix_cons, Prod.mk.injEq] at h
  obtain ⟨⟨rfl, hfirst⟩, hrest⟩ := h
  obtain ⟨ts, hts, rfl⟩ := List.prefix_map_iff.mp hrest
  have htext : joinSegments ((s, first) :: ts.map fun t => (t, Component.ofSegment? t)) =
      "/".intercalate (s :: ts) := by
    rw [joinSegments, List.map_cons, List.map_map]
    · exact congrArg (fun ts => "/".intercalate (s :: ts)) (List.map_id ts)
    · intro t heq
      obtain ⟨heq, hnil⟩ := List.cons.inj heq
      exact hroot hnil (Prod.mk.inj heq).2
  have hsegments' : (Path.mk ("/".intercalate (s :: ts))).segments = s :: ts := by
    refine segments_intercalate (List.cons_ne_nil s ts) fun t ht => ?_
    refine slash_not_mem_of_mem_segments (p := p) ?_
    rw [hsegments]
    exact ((List.prefix_cons_inj s).mpr hts).subset ht
  have habsolute : (Path.mk ("/".intercalate (s :: ts))).isAbsolute = p.isAbsolute := by
    refine isAbsolute_eq_of_prefix hsegments hsegments' hts fun hnil => ?_
    rw [Bool.eq_false_iff]
    exact fun hp => hroot (by rw [hnil]; rfl) (hfirst.trans (if_pos hp))
  rw [htext, marked, hsegments', habsolute, hfirst]

/-- A path keeps its components when what is insignificant at its end is dropped. -/
theorem components_joinSegments_trimEnd (p : Path) :
    (Path.mk (joinSegments (trimEnd p.marked))).components = p.components := by
  rw [components, components, ← filterMap_trimEnd p.marked]
  rcases htrim : trimEnd p.marked with - | ⟨⟨s, first⟩, rest⟩
  · rfl
  · by_cases hroot : rest = [] ∧ first = some .root
    · obtain ⟨rfl, rfl⟩ := hroot
      exact (show (Path.mk "/").components = [.root] by decide)
    · have hprefix : (s, first) :: rest <+: p.marked := htrim ▸ trimEnd_prefix p.marked
      rw [marked_joinSegments hprefix fun hrest hfirst => hroot ⟨hrest, hfirst⟩]

theorem join_of_text_eq_empty (hroot : root.text = "") (q : Path) : root.join q = q := by
  unfold join
  split_ifs with habsolute hslash
  · rfl
  · rw [hroot, String.empty_append]
  · exact absurd (Or.inl hroot) hslash

/-- Every path lies within the empty one, as a path with the same normal form. -/
theorem exists_within?_of_text_eq_empty (hroot : root.text = "") (p : Path) :
    ∃ q, within? root p = some q ∧ (root.join q).normalize = p.normalize := by
  have hcomponents : root.components = [] := by
    rw [show root = ⟨""⟩ from congrArg Path.mk hroot]
    decide
  refine ⟨⟨joinSegments (trimEnd p.marked)⟩, by rw [within?, hcomponents]; rfl, ?_⟩
  rw [join_of_text_eq_empty hroot]
  exact normalize_eq_of_stack (by rw [stack, stack, components_joinSegments_trimEnd])

end Path

namespace FileSystem

open PropSurface.Path

variable {fs : FileSystem} {root p : Path} {top place : Place} {names : List String} {links : Nat}

/-! ### From the root on -/

/-- Without links, components lead to the names that they come to. -/
theorem Leads.eq_of_below? {cs : List Component} {found : List String}
    (hinner : ∀ c ∈ cs, c.Inner) (hbelow : below? names cs = some found)
    (h : fs.Leads (names ++ top) (cs.map Component.text) 0 place) : place = found ++ top := by
  induction cs generalizing names with
  | nil =>
      cases hbelow
      cases h
      rfl
  | cons c cs ih =>
      have hrest : ∀ c ∈ cs, c.Inner := fun c hc => hinner c (List.mem_cons_of_mem _ hc)
      obtain ⟨between, hc, h⟩ := leads_append_zero_iff.mp
        (show fs.Leads (names ++ top) ([c.text] ++ cs.map Component.text) 0 place from h)
      rw [hc.eq_advance_of_inner (hinner c List.mem_cons_self)] at h
      cases c with
      | root => cases hbelow
      | current => exact ih hrest hbelow h
      | parent =>
          cases names with
          | nil => cases hbelow
          | cons s names => exact ih hrest hbelow h
      | name s => exact ih hrest (show below? (s :: names) cs = some found from hbelow) h

/-- A path below a root leads on from where the root leads to, which is a directory.  What leads
on from there without links is within reach as well. -/
theorem exists_top (h : root.Under p) (hp : fs.follow? p = some place) :
    ∃ top, fs.follow? root = some top ∧ fs.hasDirectory top = true ∧
      (∃ links, fs.Leads top ((rest root p).map Component.text) links place) ∧
      ∀ (q : Path) (place : Place), q.isAbsolute = false →
        fs.Leads top q.segments 0 place → fs.follow? (root.join q) = some place := by
  obtain ⟨i, j, base, hdeparts, -, hsegments, hlinks⟩ := exists_departs hp
  rw [h.absolute] at hdeparts
  have hsegments' : significant p.segments = significant root.segments ++
      (rest root p).map Component.text := by
    rw [significant, ← steps, h.steps_eq, List.map_append]
    rfl
  obtain ⟨a, b, top, rfl, hroot, hrest⟩ := leads_append_iff.mp (hsegments' ▸ hsegments.significant)
  have htop : fs.hasDirectory top = true := by
    obtain ⟨c, cs, hcs⟩ := List.exists_cons_of_ne_nil h.rest_ne_nil
    rw [hcs] at hrest
    exact hrest.hasDirectory_of_cons
  refine ⟨top, hdeparts.follow? rfl h.named (hroot.of_significant htop) (by omega), htop,
    ⟨b, hrest⟩, ?_⟩
  intro q place' hq hleads
  obtain ⟨front, hfront, hjoin⟩ := root.exists_segments_join
  have hroot' : fs.Leads base front a top := by
    refine Leads.of_significant ?_ htop
    rw [significant, hfront]
    exact hroot
  have hne : (root.join q).text ≠ "" := by
    rw [join, if_neg (by simp [hq])]
    split_ifs
    · simp [h.named]
    · simp
  refine hdeparts.follow? (isAbsolute_join root hq) hne (j := a) ?_ (by omega)
  rw [hjoin q hq]
  exact hroot'.append hleads

/-! ### Canonical paths -/

theorem Direct.of_append (h : fs.Direct (names ++ top)) : fs.Direct top := by
  induction names with
  | nil => exact h
  | cons s names ih => exact ih h.2.2

theorem Direct.marked_pathOf {s : String} {above : Place} (h : fs.Direct (s :: above)) :
    (pathOf (s :: above)).marked =
      ("", some .root) :: (s :: above).reverse.map fun t => (t, some (.name t)) := by
  have habsolute : (pathOf (s :: above)).isAbsolute = true :=
    isAbsolute_iff_components.mpr ⟨_, h.components_pathOf⟩
  simp only [marked, h.segments_pathOf, habsolute, if_true, List.cons.injEq, true_and]
  refine List.map_congr_left fun t ht => ?_
  have hname : (Component.name t).Inner := h.isName t (List.mem_reverse.mp ht)
  exact congrArg (Prod.mk t) hname.ofSegment?_text

/-- Names as segments that stand for them. -/
def marks (names : List String) : List (String × Option Component) :=
  names.map fun s => (s, some (.name s))

theorem dropSignificant_marks (names rest : List String) :
    dropSignificant names.length (marks (names ++ rest)) = marks rest := by
  induction names with
  | nil => rw [List.length_nil, List.nil_append, dropSignificant]
  | cons s names ih => exact ih

theorem dropWhile_marks (names : List String) :
    (marks names).dropWhile (·.2.isNone) = marks names := by
  cases names with
  | nil => rfl
  | cons s names => rfl

theorem joinSegments_marks (names : List String) :
    joinSegments (marks names) = "/".intercalate names := by
  have htext : (marks names).map (·.1) = names := by
    rw [marks, List.map_map]
    exact List.map_id _
  rw [joinSegments, htext]
  intro s hroot
  cases names with
  | nil => cases hroot
  | cons t names => cases hroot

/-- The part of a canonical path below another one is made up of the names in between. -/
theorem within?_pathOf (h : fs.Direct (names ++ top)) (hne : names ≠ []) :
    within? (pathOf top) (pathOf (names ++ top)) = some ⟨"/".intercalate names.reverse⟩ := by
  obtain ⟨s, above, hplace⟩ := List.exists_cons_of_ne_nil
    (show names ++ top ≠ [] from List.append_ne_nil_of_left_ne_nil hne top)
  have htop := h.of_append.components_pathOf
  have hmarked : (pathOf (names ++ top)).marked =
      ("", some .root) :: marks (top.reverse ++ names.reverse) := by
    rw [← List.reverse_append, hplace]
    exact (hplace ▸ h).marked_pathOf
  have hprefix : (pathOf top).components.isPrefixOf (pathOf (names ++ top)).components = true := by
    rw [List.isPrefixOf_iff_prefix, htop, h.components_pathOf, List.reverse_append, List.map_append]
    exact ⟨_, rfl⟩
  have hlength : (pathOf top).components.length = top.reverse.length + 1 := by
    rw [htop, List.length_cons, List.length_map]
  have htrim : trimEnd (marks names.reverse) = marks names.reverse := by
    have hreverse : (marks names.reverse).reverse = marks names := by simp [marks]
    rw [trimEnd, hreverse, dropWhile_marks, ← hreverse, List.reverse_reverse]
  rw [within?, if_pos hprefix, hlength]
  simp only [hmarked, dropSignificant, dropSignificant_marks, dropWhile_marks, htrim,
    joinSegments_marks]

theorem within?_pathOf_eq_none (h : fs.Direct place) (htop : fs.Direct top)
    (hnot : ¬ top <:+ place) : within? (pathOf top) (pathOf place) = none := by
  rw [within?, if_neg]
  intro hprefix
  rw [List.isPrefixOf_iff_prefix, h.components_pathOf, htop.components_pathOf,
    List.cons_prefix_cons] at hprefix
  obtain ⟨names, hnames, heq⟩ := List.prefix_map_iff.mp hprefix.2
  obtain rfl := (List.map_inj_right fun s t hst => Component.name.inj hst).mp heq
  exact hnot (List.reverse_prefix.mp hnames)

end FileSystem
end PropSurface
