import PropSurface.Proofs.FileSystem.Leads
import PropSurface.Proofs.Path.Spelling

/-!
# Canonical paths

Following a path ends at a place that is reached through directories only.  The path of
such a place leads back to it, so canonical paths are fixed by canonicalization.

**Definitions.**
* `FileSystem.Direct`: a place below directories, with names that can stand in a path.
* `FileSystem.FileAt`: a direct place at which a file stands.

**Results.**
* `direct_of_follow?`: following a path ends at a direct place.
* `leads_down`: the names of a place below a directory lead down to it.
* `exists_fileAt_of_isFile`: a path that leads to a file has a canonical path, which is the
  path of the place of that file.
* `FileAt.follow?_pathOf`: the path of the place of a file leads to that place.
-/

namespace PropSurface
namespace FileSystem

/-- A place that is reached from the root through directories, by names that can stand in
a path. -/
def Direct (fs : FileSystem) : Place → Prop
  | [] => True
  | s :: above => Path.IsName s ∧ fs.hasDirectory above = true ∧ Direct fs above

variable {fs : FileSystem}

theorem Direct.tail {place : Place} (h : fs.Direct place) : fs.Direct place.tail := by
  cases place with
  | nil => trivial
  | cons s above => exact h.2.2

theorem Direct.isName {place : Place} (h : fs.Direct place) : ∀ s ∈ place, Path.IsName s := by
  induction place with
  | nil => exact fun s hs => absurd hs List.not_mem_nil
  | cons t above ih =>
      intro s hs
      rcases List.mem_cons.mp hs with rfl | hs
      · exact h.1
      · exact ih h.2.2 s hs

theorem entry?_of_hasDirectory {place : Place} (h : fs.hasDirectory place = true) :
    fs.entry? place = some .directory := by
  unfold hasDirectory at h
  split at h
  · assumption
  · exact absurd h (by decide)

@[simp] theorem hasDirectory_root : fs.hasDirectory [] = true := rfl

/-! ### Where a walk ends -/

/-- The target of a link in a direct place starts at a direct place. -/
theorem direct_origin {here : Place} (h : fs.Direct here) (target : Path) :
    fs.Direct (origin target here).1 := by
  unfold origin
  split
  · trivial
  · exact h

theorem slash_not_mem_origin (target : Path) (here : Place) :
    ∀ s ∈ (origin target here).2, '/' ∉ s.toList := by
  intro s hs
  unfold origin at hs
  split at hs
  · exact Path.slash_not_mem_of_mem_segments (List.mem_of_mem_drop hs)
  · exact Path.slash_not_mem_of_mem_segments hs

/-- From a direct place, segments lead to a direct place. -/
theorem Leads.direct {here place : Place} {segments : List String} {links : Nat}
    (h : fs.Leads here segments links place) (hhere : fs.Direct here)
    (hslash : ∀ s ∈ segments, '/' ∉ s.toList) : fs.Direct place := by
  induction h with
  | here => exact hhere
  | stay hdirectory hs h ih => exact ih hhere fun t ht => hslash t (List.mem_cons_of_mem _ ht)
  | up hdirectory h ih => exact ih hhere.tail fun t ht => hslash t (List.mem_cons_of_mem _ ht)
  | @down here _ s _ _ _ hdirectory hs hentry hlink h ih =>
      have hname : Path.IsName s := ⟨hs.1, hs.2.1, hs.2.2, hslash s List.mem_cons_self⟩
      exact ih ⟨hname, hdirectory, hhere⟩ fun t ht => hslash t (List.mem_cons_of_mem s ht)
  | @link here _ _ _ _ _ _ target hdirectory hs hentry htarget h ihtarget ih =>
      have hbetween := ihtarget (direct_origin hhere target) (slash_not_mem_origin target here)
      exact ih hbetween fun t ht => hslash t (List.mem_cons_of_mem _ ht)

/-- A path leads to the place that its segments lead to from the root. -/
theorem follow?_eq_some_iff {p : Path} {place : Place} :
    fs.follow? p = some place ↔
      p.text ≠ "" ∧ ∃ links ≤ maxLinks, fs.Leads [] (fs.route p) links place := by
  rw [follow?]
  by_cases hempty : p.text = ""
  · simp [hempty]
  · rw [if_neg hempty, walk_eq_some_iff, and_iff_right hempty]

/-- Following a path ends at a direct place. -/
theorem direct_of_follow? {p : Path} {place : Place} (h : fs.follow? p = some place) :
    fs.Direct place := by
  obtain ⟨-, links, -, hleads⟩ := follow?_eq_some_iff.mp h
  exact hleads.direct trivial fun s hs => Path.slash_not_mem_of_mem_segments hs

/-! ### The path of a place -/

theorem Direct.spelled {place : Place} (h : fs.Direct place) :
    Path.Spelled (.root :: place.reverse.map .name) := by
  refine ⟨Or.inl rfl, fun c hc => ?_⟩
  obtain ⟨s, hs, rfl⟩ := List.mem_map.mp hc
  exact h.isName s (List.mem_reverse.mp hs)

theorem Direct.tidy_pathOf {place : Place} (h : fs.Direct place) : (pathOf place).Tidy :=
  Path.tidy_ofComponents h.spelled

theorem Direct.components_pathOf {place : Place} (h : fs.Direct place) :
    (pathOf place).components = .root :: place.reverse.map .name :=
  Path.components_ofComponents h.spelled

/-- A place is known by its path. -/
theorem Direct.pathOf_inj {place place' : Place} (h : fs.Direct place) (h' : fs.Direct place') :
    pathOf place = pathOf place' ↔ place = place' := by
  refine ⟨fun heq => ?_, congrArg pathOf⟩
  have hcomponents := congrArg Path.components heq
  rw [h.components_pathOf, h'.components_pathOf, List.cons.injEq] at hcomponents
  have hreverse := (List.map_inj_right fun s t hst => Component.name.inj hst).mp hcomponents.2
  exact List.reverse_inj.mp hreverse

/-- The path of a place is normal. -/
theorem Direct.normalize_pathOf {place : Place} (h : fs.Direct place) :
    (pathOf place).normalize = pathOf place :=
  Path.normalize_ofComponents_root fun s hs => h.isName s (List.mem_reverse.mp hs)

/-- The path of a place below the root spells its names from the root on. -/
theorem Direct.segments_pathOf {s : String} {above : Place} (h : fs.Direct (s :: above)) :
    (pathOf (s :: above)).segments = "" :: (s :: above).reverse := by
  have hroot : Component.root :: (s :: above).reverse.map Component.name ≠ [.root] := by simp
  have htext : Component.text ∘ Component.name = id := funext fun _ => rfl
  rw [pathOf, Path.segments_ofComponents h.spelled (List.cons_ne_nil _ _) hroot,
    List.map_cons, List.map_map, htext, List.map_id]
  rfl

/-- From a directory, the names of a place below it lead down to that place, unless a link stands
there. -/
theorem leads_down {names : List String} {top : Place} {e : Entry}
    (h : fs.Direct (names ++ top)) (hentry : fs.entry? (names ++ top) = some e)
    (hlink : ∀ target, e ≠ .link target) : fs.Leads top names.reverse 0 (names ++ top) := by
  induction names generalizing e with
  | nil => exact .here
  | cons s names ih =>
      obtain ⟨⟨hempty, hdot, hdots, -⟩, hdirectory, hdirect⟩ := h
      have habove := ih hdirect (entry?_of_hasDirectory hdirectory) (fun _ h => by cases h)
      rw [List.reverse_cons]
      exact habove.append (.down hdirectory ⟨hempty, hdot, hdots⟩ hentry hlink .here)

/-- A file stands at a place, and the place is direct. -/
structure FileAt (fs : FileSystem) (place : Place) (bytes : ByteArray) : Prop where
  direct : fs.Direct place
  entry : fs.entry? place = some (.file bytes)

namespace FileAt

variable {place : Place} {bytes : ByteArray}

theorem exists_cons (h : fs.FileAt place bytes) : ∃ s above, place = s :: above := by
  cases place with
  | nil => exact absurd h.entry (by simp)
  | cons s above => exact ⟨s, above, rfl⟩

/-- The names of a file lead to it from the root. -/
theorem leads (h : fs.FileAt place bytes) : fs.Leads [] place.reverse 0 place := by
  have hplace : place ++ [] = place := List.append_nil place
  have hdown := leads_down (hplace.symm ▸ h.direct) (hplace.symm ▸ h.entry) fun _ h => by cases h
  rwa [hplace] at hdown

/-- The path of the place of a file leads to that place. -/
theorem follow?_pathOf (h : fs.FileAt place bytes) : fs.follow? (pathOf place) = some place := by
  obtain ⟨s, above, rfl⟩ := h.exists_cons
  have hsegments := h.direct.segments_pathOf
  obtain ⟨t, rest, hcons⟩ := List.exists_cons_of_ne_nil
    (show (s :: above).reverse ≠ [] by simp)
  have habsolute : (pathOf (s :: above)).isAbsolute = true :=
    Path.isAbsolute_iff_segments.mpr ⟨t, rest, by rw [hsegments, hcons]⟩
  have htext : (pathOf (s :: above)).text ≠ "" := by
    intro hempty
    simp [Path.isAbsolute, hempty] at habsolute
  have hroute : fs.route (pathOf (s :: above)) = "" :: (s :: above).reverse := by
    rw [route, Path.join, if_pos habsolute, hsegments]
  refine follow?_eq_some_iff.mpr ⟨htext, 0, Nat.zero_le _, ?_⟩
  rw [hroute]
  exact .stay rfl (.inl rfl) h.leads

theorem canonicalize?_pathOf (h : fs.FileAt place bytes) :
    fs.canonicalize? (pathOf place) = some (pathOf place) := by
  rw [canonicalize?, h.follow?_pathOf, Option.map_some]

theorem find?_pathOf (h : fs.FileAt place bytes) :
    fs.find? (pathOf place) =
      if isTooLong (pathOf place) then none else some (.file bytes) := by
  unfold find? resolve?
  split_ifs
  · rfl
  · rw [h.follow?_pathOf, Option.bind_some, h.entry]

/-- Text that is read at the path of a file is the text of that file, and the path leads to
a file. -/
theorem of_readText?_pathOf (h : fs.FileAt place bytes) {source : String}
    (hread : fs.readText? (pathOf place) = some source) :
    String.fromUTF8? bytes = some source ∧ fs.isFile (pathOf place) = true := by
  have hfind := h.find?_pathOf
  unfold readText? at hread
  unfold isFile
  split_ifs at hfind
  · rw [hfind] at hread
    cases hread
  · rw [hfind] at hread ⊢
    exact ⟨hread, rfl⟩

end FileAt

theorem exists_follow?_of_isFile {p : Path} (h : fs.isFile p = true) :
    ∃ place bytes, fs.follow? p = some place ∧ fs.entry? place = some (.file bytes) := by
  unfold isFile at h
  split at h
  · next bytes hfind =>
      obtain ⟨place, hresolve, hentry⟩ := Option.bind_eq_some_iff.mp hfind
      unfold resolve? at hresolve
      split_ifs at hresolve
      exact ⟨place, bytes, hresolve, hentry⟩
  · cases h

/-- A path that leads to a file has the path of the place of that file as its canonical
path. -/
theorem exists_fileAt_of_isFile {p : Path} (h : fs.isFile p = true) :
    ∃ place bytes, fs.FileAt place bytes ∧ fs.canonicalize? p = some (pathOf place) := by
  obtain ⟨place, bytes, hfollow, hentry⟩ := exists_follow?_of_isFile h
  exact ⟨place, bytes, ⟨direct_of_follow? hfollow, hentry⟩,
    by rw [canonicalize?, hfollow, Option.map_some]⟩

end FileSystem
end PropSurface
