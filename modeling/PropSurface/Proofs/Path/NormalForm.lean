import PropSurface.Cache
import PropSurface.Proofs.Path.Spelling

/-!
# The normal form of paths

Resolving the dots of a path gives a normal form, and it does not matter whether this is done
before or after another path is followed from it.

**Definitions.**
* `Path.steps`: the components of a path, but for the root or a dot at its start.
* `Path.spell`: the segments of the path that a stack stands for.
* `Path.NormalForm`: the components that a normal path can have.

**Results.**
* `Path.steps_join`: a relative path adds its components to those of the path it is followed from.
* `Path.stack_normalize`: a path and its normal form leave the same stack.
* `Path.normalize_eq_self_iff`: the normal paths are those in normal form.
* `Path.normalize_join`: normalization before joining changes nothing.
* `Path.normalForm_normalize`: the laws of normalization, and what they say about the cache.
-/

namespace PropSurface

/-- Paths with the same normal form are the same request. -/
theorem Cache.load_congr {env : Environment} {c : Cache} {p q : Path}
    (h : p.normalize = q.normalize) : c.load env p = c.load env q := by
  rw [load, load, h]

theorem splitSlashes_append (xs ys : List Char) :
    splitSlashes (xs ++ '/' :: ys) = splitSlashes xs ++ splitSlashes ys := by
  induction xs with
  | nil => simp [splitSlashes]
  | cons c xs ih =>
      obtain ⟨part, parts, hsplit⟩ := List.exists_cons_of_ne_nil (splitSlashes_ne_nil xs)
      by_cases hc : c = '/'
      · simp [splitSlashes, hc, ih]
      · simp [splitSlashes, hc, ih, hsplit]

namespace Component

/-- A component inside a path has the text of the segment that it stands for. -/
theorem text_of_ofSegment? {s : String} {c : Component} (h : ofSegment? s = some c) :
    c.text = s := by
  unfold ofSegment? at h
  split_ifs at h with _ hdots
  · cases h
    exact hdots.symm
  · cases h
    rfl

end Component

namespace Path

/-! ### Inner components -/

/-- The components of a path, but for the root or a dot at its start. -/
def steps (p : Path) : List Component := p.segments.filterMap Component.ofSegment?

/-- The stack on which the inner components of a path are pushed. -/
def bottom (p : Path) : List Component := if p.isAbsolute then [.root] else []

theorem inner_of_mem_steps {p : Path} {c : Component} (h : c ∈ p.steps) : c.Inner := by
  obtain ⟨s, hs, hsc⟩ := List.mem_filterMap.mp h
  exact Component.inner_of_ofSegment? (slash_not_mem_of_mem_segments hs) hsc

theorem reduced_bottom (p : Path) : Reduced p.isAbsolute p.bottom := by
  unfold bottom
  cases p.isAbsolute with
  | true => exact .root
  | false => exact .parents 0

/-- A dot at the start of a path leaves no trace on the stack. -/
theorem stack_eq (p : Path) : p.stack = p.steps.foldl pushNormal p.bottom := by
  by_cases habsolute : p.isAbsolute = true
  · obtain ⟨s, rest, hsegments⟩ := isAbsolute_iff_segments.mp habsolute
    have hcomponents : p.components = .root :: p.steps :=
      components_eq_of_segments hsegments (if_pos habsolute)
        (by simp [steps, hsegments, Component.ofSegment?])
    rw [stack, hcomponents, bottom, if_pos habsolute]
    rfl
  · rw [stack, bottom, if_neg habsolute]
    cases hsegments : p.segments with
    | nil => simp [components, marked, steps, hsegments]
    | cons s ss =>
        have hrest : (ss.map fun t => (t, Component.ofSegment? t)).filterMap (·.2) =
            ss.filterMap Component.ofSegment? := by
          rw [List.filterMap_map]
          rfl
        simp only [components, marked, steps, hsegments, if_neg habsolute,
          List.filterMap_cons, hrest]
        by_cases hdot : s = "."
        · rw [hdot]
          rfl
        · rw [Component.ofLeading?, if_neg hdot]

/-! ### Joining -/

theorem segments_append_slash (s t : String) :
    (Path.mk (s ++ "/" ++ t)).segments = (Path.mk s).segments ++ (Path.mk t).segments := by
  simp [segments, splitSlashes_append]

/-- The segments of a relative path come behind those of the path it is followed from, of which an
empty one at the end is dropped. -/
theorem exists_segments_join (p : Path) :
    ∃ front : List String, front.filterMap Component.ofSegment? = p.steps ∧
      ∀ q : Path, q.isAbsolute = false → (p.join q).segments = front ++ q.segments := by
  by_cases hempty : p.text = ""
  · refine ⟨[], ?_, fun q hq => ?_⟩
    · rw [show p = ⟨""⟩ from congrArg Path.mk hempty]
      decide
    · rw [join, if_neg (by simp [hq]), if_pos (.inl hempty), hempty, String.empty_append]
      rfl
  · by_cases hslash : p.text.toList.getLast? = some '/'
    · -- The slash at the end of `p` is the one between the two.
      obtain ⟨chars, hchars⟩ := List.getLast?_eq_some_iff.mp hslash
      have htext : p.text = String.ofList chars ++ "/" := by
        apply String.toList_inj.mp
        rw [hchars, String.toList_append, String.toList_ofList]
        rfl
      refine ⟨(Path.mk (String.ofList chars)).segments, ?_, fun q hq => ?_⟩
      · rw [steps, show p = ⟨String.ofList chars ++ "/" ++ ""⟩ by rw [String.append_empty, ← htext],
          segments_append_slash, List.filterMap_append]
        exact (List.append_nil _).symm
      · rw [join, if_neg (by simp [hq]), if_pos (.inr hslash), htext, segments_append_slash]
    · refine ⟨p.segments, rfl, fun q hq => ?_⟩
      rw [join, if_neg (by simp [hq]), if_neg (not_or.mpr ⟨hempty, hslash⟩),
        segments_append_slash]

/-- A relative path adds its components to those of the path it is followed from. -/
theorem steps_join (p : Path) {q : Path} (hq : q.isAbsolute = false) :
    (p.join q).steps = p.steps ++ q.steps := by
  obtain ⟨front, hfront, hjoin⟩ := exists_segments_join p
  rw [steps, hjoin q hq, List.filterMap_append, hfront]
  rfl

theorem isAbsolute_join (p : Path) {q : Path} (hq : q.isAbsolute = false) :
    (p.join q).isAbsolute = p.isAbsolute := by
  rw [join, if_neg (by simp [hq])]
  cases htext : p.text.toList with
  | nil =>
      have hempty : p.text = "" := by simpa using htext
      rw [if_pos (.inl hempty), hempty, String.empty_append, hq]
      simp [isAbsolute, htext]
  | cons c cs =>
      split_ifs
      · simp [isAbsolute, htext]
      · simp [isAbsolute, htext]

/-! ### The stack of a normal path -/

/-- The segments that spell the components on a stack. -/
def spell (stack : List Component) : List String := stack.reverse.map Component.text

@[simp] theorem spell_cons (c : Component) (stack : List Component) :
    spell (c :: stack) = spell stack ++ [c.text] := by
  simp [spell]

theorem stack_join (p : Path) {q : Path} (hq : q.isAbsolute = false) :
    (p.join q).stack = q.steps.foldl pushNormal p.stack := by
  rw [stack_eq, bottom, isAbsolute_join p hq, steps_join p hq, List.foldl_append, stack_eq p]
  rfl

/-- A normal path that goes anywhere is spelled by its stack. -/
theorem normalize_eq_ofComponents {p : Path} (h : p.stack ≠ []) :
    p.normalize = ofComponents p.stack.reverse := by
  unfold normalize
  rw [normalComponents_components]
  split
  · next hnil => exact absurd (List.reverse_eq_nil_iff.mp hnil) h
  · rfl

theorem segments_normalize {p : Path} (h : p.stack ≠ []) (hroot : p.stack ≠ [.root]) :
    p.normalize.segments = spell p.stack := by
  rw [normalize_eq_ofComponents h]
  refine segments_ofComponents (reduced_stack p).spelled_reverse (by simpa using h) fun heq => ?_
  exact hroot (List.reverse_eq_iff.mp heq)

/-- The components of a normal path. -/
theorem components_normalize (p : Path) :
    p.normalize.components = if p.stack = [] then [.current] else p.stack.reverse := by
  split_ifs with hnil
  · unfold normalize
    rw [normalComponents_components, hnil]
    decide
  · rw [normalize_eq_ofComponents hnil]
    exact components_ofComponents (reduced_stack p).spelled_reverse

/-- The normal form of a path is never the empty text. -/
theorem text_normalize_ne_empty (p : Path) : p.normalize.text ≠ "" := by
  intro hempty
  have hcomponents := components_normalize p
  rw [show p.normalize = ⟨""⟩ from congrArg mk hempty,
    show (Path.mk "").components = [] by decide] at hcomponents
  split_ifs at hcomponents with hnil
  exact hnil (List.reverse_eq_nil_iff.mp hcomponents.symm)

/-- A path and its normal form leave the same stack. -/
@[simp] theorem stack_normalize (p : Path) : p.normalize.stack = p.stack := by
  rw [stack, components_normalize]
  split_ifs with hnil
  · rw [hnil]
    rfl
  · exact (reduced_stack p).foldl_reverse

/-- Paths with the same stack have the same normal form. -/
theorem normalize_eq_of_stack {p q : Path} (h : p.stack = q.stack) :
    p.normalize = q.normalize := by
  rw [normalize, normalize, normalComponents_components, normalComponents_components, h]

theorem normalize_normalize (p : Path) : p.normalize.normalize = p.normalize :=
  normalize_eq_of_stack (stack_normalize p)

/-- Normalization before joining changes nothing. -/
theorem normalize_join (p q : Path) : (p.join q).normalize = (p.normalize.join q).normalize := by
  cases hq : q.isAbsolute with
  | true => rw [join, if_pos hq, join, if_pos hq]
  | false =>
      apply normalize_eq_of_stack
      rw [stack_join p hq, stack_join p.normalize hq, stack_normalize]

/-! ### Normal forms -/

/-- The components that a normal path can have: the current directory, names below the root, or
the steps of a relative path, those up before those down. -/
inductive NormalForm : List Component → Prop
  | current : NormalForm [.current]
  | absolute (names : List String) : NormalForm (.root :: names.map .name)
  | relative (ups : Nat) (names : List String) (hne : 0 < ups + names.length) :
      NormalForm (List.replicate ups .parent ++ names.map .name)

/-- A stack, read from its bottom. -/
theorem Reduced.reverse_eq {absolute : Bool} {stack : List Component}
    (h : Reduced absolute stack) :
    ∃ names : List String, absolute = true ∧ stack.reverse = .root :: names.map .name ∨
      absolute = false ∧ ∃ ups, stack.reverse = List.replicate ups .parent ++ names.map .name := by
  induction h with
  | root => exact ⟨[], .inl ⟨rfl, rfl⟩⟩
  | parents n => exact ⟨[], .inr ⟨rfl, n, by simp⟩⟩
  | @name absolute s stack hs h ih =>
      obtain ⟨names, ⟨habsolute, hstack⟩ | ⟨hrelative, ups, hstack⟩⟩ := ih
      · exact ⟨names ++ [s], .inl ⟨habsolute, by simp [hstack]⟩⟩
      · exact ⟨names ++ [s], .inr ⟨hrelative, ups, by simp [hstack]⟩⟩

theorem normalForm_components_normalize (p : Path) : NormalForm p.normalize.components := by
  rw [components_normalize]
  split_ifs with hnil
  · exact .current
  · obtain ⟨names, ⟨-, hstack⟩ | ⟨-, ups, hstack⟩⟩ := (reduced_stack p).reverse_eq
    · exact hstack ▸ .absolute names
    · rw [hstack]
      refine .relative ups names (Nat.pos_of_ne_zero fun hzero => hnil ?_)
      have hlength := congrArg List.length hstack
      rw [List.length_reverse, List.length_append, List.length_replicate, List.length_map,
        hzero] at hlength
      exact List.eq_nil_of_length_eq_zero hlength

@[simp] theorem isAbsolute_normalize (p : Path) : p.normalize.isAbsolute = p.isAbsolute := by
  rw [Bool.eq_iff_iff, isAbsolute_iff_components, components_normalize]
  obtain ⟨names, ⟨habsolute, hstack⟩ | ⟨hrelative, ups, hstack⟩⟩ := (reduced_stack p).reverse_eq
  · have hnil : p.stack ≠ [] := by
      rintro hnil
      rw [hnil] at hstack
      cases hstack
    rw [if_neg hnil, habsolute, hstack]
    exact iff_of_true ⟨_, rfl⟩ rfl
  · rw [hrelative]
    refine iff_of_false ?_ (by decide)
    rintro ⟨cs, hcs⟩
    split_ifs at hcs with hnil
    · cases hcs
    · have hmem : Component.root ∈ List.replicate ups .parent ++ names.map .name := by
        rw [← hstack, hcs]
        exact List.mem_cons_self
      simp at hmem

theorem Spelled.isName {cs : List Component} (h : Spelled cs) {s : String}
    (hs : Component.name s ∈ cs) : IsName s := by
  cases cs with
  | nil => cases hs
  | cons c cs =>
      rcases List.mem_cons.mp hs with rfl | hs
      · rcases h.1 with hc | hc | hc
        · cases hc
        · cases hc
        · exact hc
      · exact h.2 _ hs

/-- The components of a path in normal form are its stack, read from the bottom. -/
theorem NormalForm.exists_reduced {cs : List Component} (h : NormalForm cs)
    (hspelled : Spelled cs) :
    cs = [.current] ∨
      ∃ absolute stack, Reduced absolute stack ∧ stack ≠ [] ∧ stack.reverse = cs := by
  cases h with
  | current => exact .inl rfl
  | absolute names =>
      have hnames : ∀ s ∈ names.reverse, IsName s := fun s hs =>
        hspelled.2 (.name s) (List.mem_map_of_mem (List.mem_reverse.mp hs))
      exact .inr ⟨true, _, Reduced.root.names hnames, by simp, by simp⟩
  | relative ups names hne =>
      have hnames : ∀ s ∈ names.reverse, IsName s := fun s hs =>
        hspelled.isName (List.mem_append_right _ (List.mem_map_of_mem (List.mem_reverse.mp hs)))
      refine .inr ⟨false, _, (Reduced.parents ups).names hnames, fun hnil => ?_, by simp⟩
      obtain ⟨hnone, rfl⟩ : names = [] ∧ ups = 0 := by simpa using hnil
      rw [hnone] at hne
      exact absurd hne (by decide)

/-- The normal paths are those in normal form that are spelled without insignificant parts. -/
theorem normalize_eq_self_iff {p : Path} :
    p.normalize = p ↔ p.Tidy ∧ NormalForm p.components := by
  constructor
  · intro h
    exact h ▸ ⟨tidy_normalize p, normalForm_components_normalize p⟩
  · rintro ⟨htidy, hform⟩
    rcases hform.exists_reduced (spelled_components p) with
      hcurrent | ⟨absolute, stack, hstack, hne, hcs⟩
    · rw [← htidy, hcurrent]
      decide
    · rw [← htidy, ← hcs]
      exact hstack.normalize_ofComponents hne

/-- The normal form of a path is `.`, or absolute without dots, or relative with the steps up at
its start.  A path is normal exactly if it has this form and no insignificant parts.  The form is
absolute exactly if the path is, and normalizing a path before or after another one is followed
from it comes to the same; so it does not matter to the cache whether an import is followed from
the directory of the importing file or from the normal form of that directory. -/
theorem normalForm_normalize (p : Path) :
    (NormalForm p.normalize.components ∧ p.normalize.Tidy) ∧
      (p.normalize = p ↔ NormalForm p.components ∧ p.Tidy) ∧
      p.normalize.normalize = p.normalize ∧
      p.normalize.isAbsolute = p.isAbsolute ∧
      (∀ q : Path, (p.join q).normalize = (p.normalize.join q).normalize) ∧
      ∀ (env : Environment) (c : Cache) (specifier : String),
        c.load env (p.resolveSpecifier specifier) =
          c.load env ((p.parent?.getD ⟨""⟩).normalize.join ⟨specifier⟩) := by
  refine ⟨⟨normalForm_components_normalize p, tidy_normalize p⟩, ?_, normalize_normalize p,
    isAbsolute_normalize p, normalize_join p, ?_⟩
  · rw [normalize_eq_self_iff, and_comm]
  · intro env c specifier
    apply Cache.load_congr
    rw [resolveSpecifier, normalize_normalize, normalize_join]

end Path
end PropSurface
