import Mathlib.Tactic.Common
import PropSurface.Path.Normal

/-!
# Spelling of paths

What a path means is the list of its components, and every list of components that a
path can have is spelled by `Path.ofComponents`.

**Definitions.**
* `Path.IsName`: a text that can stand in a path as a name.
* `Path.Spelled`: a list of components that a path can have.
* `Path.Reduced`: a stack of normal components.
* `Path.Tidy`: a path that is spelled without insignificant parts.

**Results.**
* `components_ofComponents`: a spelled list is read back from its path.
* `reduced_stack`: what pushing the components of a path leads to.
* `tidy_normalize`: normal paths are tidy.
* `normalize_ofComponents_root`: an absolute path without dots is normal.
* `Tidy.eq_of_same`: tidy paths with the same components are equal, so for them it does
  not matter that keys are compared by components.
-/

namespace PropSurface

/-! ### Cutting at slashes -/

theorem splitSlashes_eq_splitOn (cs : List Char) : splitSlashes cs = cs.splitOn '/' := by
  induction cs with
  | nil => rfl
  | cons c cs ih =>
      rw [List.splitOn_cons_eq_if_modifyHead, splitSlashes, ih]
      by_cases hc : c = '/'
      · simp [hc]
      · cases hsplit : cs.splitOn '/' with
        | nil => exact absurd hsplit (List.splitOn_ne_nil _ _)
        | cons part parts => simp [hc]

theorem splitSlashes_ne_nil (cs : List Char) : splitSlashes cs ≠ [] := by
  rw [splitSlashes_eq_splitOn]
  exact List.splitOn_ne_nil _ _

/-- No part holds a slash. -/
theorem slash_not_mem_of_mem_splitSlashes {part : List Char} :
    ∀ {cs : List Char}, part ∈ splitSlashes cs → '/' ∉ part
  | [], h => by
      rw [List.mem_singleton.mp h]
      exact List.not_mem_nil
  | c :: cs, h => by
      by_cases hc : c = '/'
      · rw [splitSlashes, if_pos hc] at h
        rcases List.mem_cons.mp h with rfl | h
        · exact List.not_mem_nil
        · exact slash_not_mem_of_mem_splitSlashes h
      · rw [splitSlashes, if_neg hc] at h
        cases hsplit : splitSlashes cs with
        | nil => exact absurd hsplit (splitSlashes_ne_nil cs)
        | cons first rest =>
            rw [hsplit] at h
            rcases List.mem_cons.mp h with rfl | h
            · have hfirst : '/' ∉ first :=
                slash_not_mem_of_mem_splitSlashes (hsplit ▸ List.mem_cons_self)
              simp [Ne.symm hc, hfirst]
            · exact slash_not_mem_of_mem_splitSlashes (hsplit ▸ List.mem_cons_of_mem _ h)

namespace Path

/-- Segments hold no slash. -/
theorem slash_not_mem_of_mem_segments {p : Path} {s : String} (h : s ∈ p.segments) :
    '/' ∉ s.toList := by
  obtain ⟨part, hpart, rfl⟩ := List.mem_map.mp h
  rw [String.toList_ofList]
  exact slash_not_mem_of_mem_splitSlashes hpart

/-- Segments joined by slashes are read back. -/
theorem segments_intercalate {parts : List String} (hne : parts ≠ [])
    (hslash : ∀ s ∈ parts, '/' ∉ s.toList) :
    (Path.mk ("/".intercalate parts)).segments = parts := by
  have hslash' : ∀ part ∈ parts.map String.toList, '/' ∉ part := by
    intro part hpart
    obtain ⟨s, hs, rfl⟩ := List.mem_map.mp hpart
    exact hslash s hs
  have hsplit : splitSlashes ("/".intercalate parts).toList = parts.map String.toList := by
    rw [splitSlashes_eq_splitOn, String.toList_intercalate]
    exact List.splitOn_intercalate '/' hslash' (by simpa using hne)
  have hid : String.ofList ∘ String.toList = id := funext fun _ => String.ofList_toList
  rw [segments, hsplit, List.map_map, hid, List.map_id]

/-- A path is absolute exactly when an empty segment comes first and others follow. -/
theorem isAbsolute_iff_segments {p : Path} :
    p.isAbsolute = true ↔ ∃ s rest, p.segments = "" :: s :: rest := by
  unfold isAbsolute segments
  cases htext : p.text.toList with
  | nil => simp [splitSlashes]
  | cons c cs =>
      obtain ⟨part, parts, hsplit⟩ := List.exists_cons_of_ne_nil (splitSlashes_ne_nil cs)
      by_cases hc : c = '/'
      · simp [splitSlashes, hc, hsplit]
      · simp [splitSlashes, hc, hsplit]

/-! ### Lists of components -/

/-- A text that can stand in a path as a name: it is not empty, not dots, and holds no
slash. -/
def IsName (s : String) : Prop :=
  s ≠ "" ∧ s ≠ "." ∧ s ≠ ".." ∧ '/' ∉ s.toList

end Path

/-- A component that can stand behind another one. -/
def Component.Inner : Component → Prop
  | root => False
  | current => False
  | parent => True
  | name s => Path.IsName s

namespace Component

theorem Inner.slash_not_mem_text {c : Component} (h : c.Inner) : '/' ∉ c.text.toList := by
  cases c with
  | root => exact h.elim
  | current => exact h.elim
  | parent => decide
  | name s => exact h.2.2.2

theorem Inner.text_ne_empty {c : Component} (h : c.Inner) : c.text ≠ "" := by
  cases c with
  | root => exact h.elim
  | current => exact h.elim
  | parent => decide
  | name s => exact h.1

/-- An inner component is read back from its text. -/
theorem Inner.ofSegment?_text {c : Component} (h : c.Inner) :
    ofSegment? c.text = some c := by
  cases c with
  | root => exact h.elim
  | current => exact h.elim
  | parent => rfl
  | name s =>
      obtain ⟨hempty, hdot, hdots, _⟩ := h
      simp [ofSegment?, text, hempty, hdot, hdots]

theorem Inner.ofLeading?_text {c : Component} (h : c.Inner) :
    ofLeading? c.text = some c := by
  have hdot : c.text ≠ "." := by
    cases c with
    | root => exact h.elim
    | current => exact h.elim
    | parent => decide
    | name s => exact h.2.1
  rw [ofLeading?, if_neg hdot, h.ofSegment?_text]

/-- What a segment stands for is an inner component. -/
theorem inner_of_ofSegment? {s : String} {c : Component} (hslash : '/' ∉ s.toList)
    (h : ofSegment? s = some c) : c.Inner := by
  unfold ofSegment? at h
  split_ifs at h with hempty hdots
  · cases h
    trivial
  · cases h
    rw [not_or] at hempty
    exact ⟨hempty.1, hempty.2, hdots, hslash⟩

end Component

namespace Path

/-- A list of components that a path can have: the root and the current directory stand
only at the start. -/
def Spelled : List Component → Prop
  | [] => True
  | c :: cs => (c = .root ∨ c = .current ∨ c.Inner) ∧ ∀ d ∈ cs, d.Inner

theorem Spelled.of_inner {cs : List Component} (h : ∀ c ∈ cs, c.Inner) : Spelled cs := by
  cases cs with
  | nil => trivial
  | cons c cs =>
      exact ⟨Or.inr (Or.inr (h c List.mem_cons_self)),
        fun d hd => h d (List.mem_cons_of_mem c hd)⟩

theorem Spelled.append {cs ds : List Component} (h : Spelled cs) (hds : ∀ d ∈ ds, d.Inner) :
    Spelled (cs ++ ds) := by
  cases cs with
  | nil => exact .of_inner hds
  | cons c cs =>
      refine ⟨h.1, fun d hd => ?_⟩
      rcases List.mem_append.mp hd with hd | hd
      · exact h.2 d hd
      · exact hds d hd

theorem Spelled.slash_not_mem_text {cs : List Component} (h : Spelled cs) :
    ∀ s ∈ cs.map Component.text, '/' ∉ s.toList := by
  intro s hs
  obtain ⟨c, hc, rfl⟩ := List.mem_map.mp hs
  cases cs with
  | nil => cases hc
  | cons first rest =>
      obtain ⟨hfirst, hrest⟩ := h
      rcases List.mem_cons.mp hc with rfl | hc
      · rcases hfirst with rfl | rfl | hinner
        · decide
        · decide
        · exact hinner.slash_not_mem_text
      · exact (hrest c hc).slash_not_mem_text

/-- The segments of a path that is built from more than the root are the texts of its
components. -/
theorem segments_ofComponents {cs : List Component} (h : Spelled cs) (hne : cs ≠ [])
    (hroot : cs ≠ [.root]) : (ofComponents cs).segments = cs.map Component.text := by
  rw [ofComponents, if_neg hroot]
  exact segments_intercalate (by simpa using hne) h.slash_not_mem_text

/-- Components of a path whose segments are known, if its first segment stands for `c`. -/
theorem components_eq_of_segments {p : Path} {s : String} {ss : List String}
    {c : Component} {cs : List Component} (hsegments : p.segments = s :: ss)
    (hfirst : (if p.isAbsolute then some .root else Component.ofLeading? s) = some c)
    (hrest : ss.filterMap Component.ofSegment? = cs) : p.components = c :: cs := by
  simp only [components, marked, hsegments, hfirst, List.filterMap_cons, List.filterMap_map]
  exact congrArg (c :: ·) hrest

theorem filterMap_ofSegment?_text {cs : List Component} (h : ∀ c ∈ cs, c.Inner) :
    (cs.map Component.text).filterMap Component.ofSegment? = cs := by
  induction cs with
  | nil => rfl
  | cons c cs ih =>
      have hc := (h c List.mem_cons_self).ofSegment?_text
      have hcs := ih fun d hd => h d (List.mem_cons_of_mem c hd)
      rw [List.map_cons, List.filterMap_cons, hc, hcs]

/-- A list of components is read back from the path it spells. -/
theorem components_ofComponents {cs : List Component} (h : Spelled cs) :
    (ofComponents cs).components = cs := by
  cases cs with
  | nil => decide
  | cons c cs =>
      by_cases hroot : c :: cs = [.root]
      · rw [hroot]
        decide
      have hsegments := segments_ofComponents h (List.cons_ne_nil c cs) hroot
      obtain ⟨hfirst, hrest⟩ := h
      refine components_eq_of_segments hsegments ?_ (filterMap_ofSegment?_text hrest)
      by_cases hc : c = .root
      · -- something follows the root, so the text starts with a slash
        subst hc
        cases cs with
        | nil => exact absurd rfl hroot
        | cons d ds =>
            rw [if_pos (isAbsolute_iff_segments.mpr ⟨d.text, ds.map Component.text, hsegments⟩)]
      · have htext : c.text ≠ "" := by
          rcases hfirst with hroot | rfl | hinner
          · exact absurd hroot hc
          · decide
          · exact hinner.text_ne_empty
        have hrelative : ¬ (ofComponents (c :: cs)).isAbsolute = true := by
          intro habsolute
          obtain ⟨s, rest, heq⟩ := isAbsolute_iff_segments.mp habsolute
          rw [hsegments, List.map_cons] at heq
          exact htext (List.cons.inj heq).1
        rw [if_neg hrelative]
        rcases hfirst with hroot | rfl | hinner
        · exact absurd hroot hc
        · rfl
        · exact hinner.ofLeading?_text

/-- The components of a path form a spelled list. -/
theorem spelled_components (p : Path) : Spelled p.components := by
  have hinner : ∀ ss : List String, (∀ s ∈ ss, '/' ∉ s.toList) →
      ∀ c ∈ ss.filterMap Component.ofSegment?, c.Inner := by
    intro ss hss c hc
    obtain ⟨s, hs, hsc⟩ := List.mem_filterMap.mp hc
    exact Component.inner_of_ofSegment? (hss s hs) hsc
  have hslash : ∀ s ∈ p.segments, '/' ∉ s.toList :=
    fun s hs => slash_not_mem_of_mem_segments hs
  unfold components marked
  cases hsegments : p.segments with
  | nil => trivial
  | cons s ss =>
      rw [hsegments] at hslash
      have hrest := hinner ss fun t ht => hslash t (List.mem_cons_of_mem s ht)
      simp only [List.filterMap_cons, List.filterMap_map]
      split
      · exact Spelled.of_inner hrest
      · rename_i c hc
        refine ⟨?_, hrest⟩
        split_ifs at hc with habsolute
        · exact Or.inl (Option.some.inj hc).symm
        · rw [Component.ofLeading?] at hc
          split_ifs at hc with hdot
          · exact Or.inr (Or.inl (Option.some.inj hc).symm)
          · exact Or.inr (Or.inr
              (Component.inner_of_ofSegment? (hslash s List.mem_cons_self) hc))

/-! ### Normal stacks -/

/-- A path starts at the root exactly when the root is its first component. -/
theorem isAbsolute_iff_components {p : Path} :
    p.isAbsolute = true ↔ ∃ cs, p.components = .root :: cs := by
  constructor
  · intro habsolute
    obtain ⟨s, rest, hsegments⟩ := isAbsolute_iff_segments.mp habsolute
    exact ⟨_, components_eq_of_segments hsegments (if_pos habsolute) rfl⟩
  · rintro ⟨cs, hcs⟩
    by_contra hrelative
    have hleading : ∀ s, Component.ofLeading? s ≠ some .root := by
      intro s
      unfold Component.ofLeading? Component.ofSegment?
      split_ifs <;> simp
    have hinner : ∀ s, Component.ofSegment? s ≠ some .root := by
      intro s
      unfold Component.ofSegment?
      split_ifs <;> simp
    have hmem : Component.root ∈ p.components := hcs ▸ List.mem_cons_self
    cases hsegments : p.segments with
    | nil => simp [components, marked, hsegments] at hmem
    | cons s ss => simp [components, marked, hsegments, hrelative, hleading, hinner] at hmem

/-- A stack of names above the root, or above the steps up at the start of a relative path. -/
inductive Reduced : Bool → List Component → Prop
  | root : Reduced true [.root]
  | parents (n : Nat) : Reduced false (List.replicate n .parent)
  | name {absolute : Bool} {s : String} {stack : List Component} (hs : IsName s)
      (h : Reduced absolute stack) : Reduced absolute (.name s :: stack)

namespace Reduced

variable {absolute : Bool} {stack : List Component}

/-- Pushing a component keeps the form of a stack. -/
theorem pushNormal (h : Reduced absolute stack) {c : Component} (hc : c = .current ∨ c.Inner) :
    Reduced absolute (Path.pushNormal stack c) := by
  cases c with
  | root => rcases hc with hc | hc <;> cases hc
  | current => exact h
  | name s =>
      rcases hc with hc | hs
      · cases hc
      · exact h.name hs
  | parent =>
      cases h with
      | root => exact .root
      | parents n =>
          cases n with
          | zero => exact .parents 1
          | succ n => exact .parents (n + 2)
      | name hs h => exact h

theorem foldl_pushNormal (h : Reduced absolute stack) {cs : List Component}
    (hcs : ∀ c ∈ cs, c = .current ∨ c.Inner) :
    Reduced absolute (cs.foldl Path.pushNormal stack) := by
  induction cs generalizing stack with
  | nil => exact h
  | cons c cs ih =>
      exact ih (h.pushNormal (hcs c List.mem_cons_self))
        fun d hd => hcs d (List.mem_cons_of_mem c hd)

/-- A stack is built again from its components. -/
theorem foldl_reverse (h : Reduced absolute stack) :
    stack.reverse.foldl Path.pushNormal [] = stack := by
  induction h with
  | root => rfl
  | parents n =>
      rw [List.reverse_replicate]
      induction n with
      | zero => rfl
      | succ n ih =>
          have hpush : Path.pushNormal (List.replicate n .parent) .parent =
              List.replicate (n + 1) .parent := by
            cases n with
            | zero => rfl
            | succ n => rfl
          calc (List.replicate (n + 1) Component.parent).foldl Path.pushNormal []
              = Path.pushNormal ((List.replicate n .parent).foldl Path.pushNormal []) .parent := by
                rw [List.replicate_succ', List.foldl_append]
                rfl
            _ = List.replicate (n + 1) .parent := by rw [ih, hpush]
  | @name _ s stack hs h ih =>
      rw [List.reverse_cons, List.foldl_append, ih]
      rfl

theorem spelled_reverse (h : Reduced absolute stack) : Spelled stack.reverse := by
  induction h with
  | root => exact ⟨.inl rfl, by simp⟩
  | parents n =>
      refine .of_inner fun c hc => ?_
      rw [List.eq_of_mem_replicate (List.mem_reverse.mp hc)]
      trivial
  | @name _ s stack hs h ih =>
      rw [List.reverse_cons]
      exact ih.append fun c hc => List.mem_singleton.mp hc ▸ hs

end Reduced

/-- The stack from which the normal form of a path is read, top first. -/
def stack (p : Path) : List Component := p.components.foldl pushNormal []

theorem normalComponents_components (p : Path) :
    normalComponents p.components = p.stack.reverse := rfl

theorem reduced_stack (p : Path) : Reduced p.isAbsolute p.stack := by
  have hspelled := spelled_components p
  unfold stack
  cases habsolute : p.isAbsolute with
  | true =>
      obtain ⟨cs, hcs⟩ := isAbsolute_iff_components.mp habsolute
      rw [hcs] at hspelled ⊢
      exact Reduced.root.foldl_pushNormal fun c hc => .inr (hspelled.2 c hc)
  | false =>
      refine (Reduced.parents 0).foldl_pushNormal fun c hc => ?_
      cases hcs : p.components with
      | nil =>
          rw [hcs] at hc
          cases hc
      | cons first rest =>
          have hroot : first ≠ .root := by
            rintro rfl
            rw [isAbsolute_iff_components.mpr ⟨rest, hcs⟩] at habsolute
            cases habsolute
          rw [hcs] at hspelled hc
          rcases List.mem_cons.mp hc with rfl | hc
          · exact hspelled.1.resolve_left hroot
          · exact .inr (hspelled.2 c hc)

/-! ### Normal and tidy paths -/

/-- A path without insignificant parts: it is spelled by its components. -/
def Tidy (p : Path) : Prop := ofComponents p.components = p

theorem tidy_ofComponents {cs : List Component} (h : Spelled cs) : Tidy (ofComponents cs) := by
  rw [Tidy, components_ofComponents h]

/-- Normal paths are tidy. -/
theorem tidy_normalize (p : Path) : Tidy p.normalize := by
  have hspelled : Spelled (normalComponents p.components) := (reduced_stack p).spelled_reverse
  unfold normalize
  split
  · unfold Tidy
    decide
  · exact tidy_ofComponents hspelled

/-- A tidy path whose components stand on a stack in this order is normal. -/
theorem Reduced.normalize_ofComponents {absolute : Bool} {stack : List Component}
    (h : Reduced absolute stack) (hne : stack ≠ []) :
    (ofComponents stack.reverse).normalize = ofComponents stack.reverse := by
  unfold normalize
  rw [components_ofComponents h.spelled_reverse, normalComponents, h.foldl_reverse]
  split
  · next hnil => exact absurd (List.reverse_eq_nil_iff.mp hnil) hne
  · rfl

/-- Names can stand on any stack. -/
theorem Reduced.names {absolute : Bool} {stack : List Component} (h : Reduced absolute stack)
    {names : List String} (hnames : ∀ s ∈ names, IsName s) :
    Reduced absolute (names.map .name ++ stack) := by
  induction names with
  | nil => exact h
  | cons s names ih =>
      exact (ih fun t ht => hnames t (List.mem_cons_of_mem s ht)).name
        (hnames s List.mem_cons_self)

/-- An absolute path without dots is normal. -/
theorem normalize_ofComponents_root {names : List String} (h : ∀ s ∈ names, IsName s) :
    (ofComponents (.root :: names.map .name)).normalize =
      ofComponents (.root :: names.map .name) := by
  have hreduced : Reduced true (names.reverse.map .name ++ [.root]) :=
    Reduced.root.names fun s hs => h s (List.mem_reverse.mp hs)
  simpa using hreduced.normalize_ofComponents (by simp)

/-- Tidy paths with the same components are equal. -/
theorem Tidy.eq_of_same {p q : Path} (hp : Tidy p) (hq : Tidy q) (h : p.same q = true) :
    p = q := by
  rw [← hp, ← hq, same_iff.mp h]

end Path
end PropSurface
