import Mathlib.Tactic.Common
import PropSurface.Proofs.Path.NormalForm

/-!
# The length of normal paths

A normal path is no longer than the path it comes from, so a path that is short enough to be
looked up stays so.

**Definitions.**
* `Path.spread`: the bytes of segments, each with a slash.

**Results.**
* `Path.spread_spell_foldl_le`: pushing components takes no more room than they do.
* `Path.utf8ByteSize_normalize_le`: a normal path is no longer than the path it comes from.
-/

namespace PropSurface
namespace Path

/-- The bytes of segments, with one for a slash behind each of them. -/
def spread : List String → Nat
  | [] => 0
  | s :: ss => s.utf8ByteSize + 1 + spread ss

@[simp] theorem spread_nil : spread [] = 0 := rfl

@[simp] theorem spread_cons (s : String) (ss : List String) :
    spread (s :: ss) = s.utf8ByteSize + 1 + spread ss := rfl

@[simp] theorem spread_append (ss ts : List String) :
    spread (ss ++ ts) = spread ss + spread ts := by
  induction ss with
  | nil => simp
  | cons s ss ih =>
      rw [List.cons_append, spread_cons, spread_cons, ih]
      omega

/-- Joined segments have a slash less than segments. -/
theorem utf8ByteSize_intercalate {ss : List String} (h : ss ≠ []) :
    ("/".intercalate ss).utf8ByteSize + 1 = spread ss := by
  induction ss with
  | nil => exact absurd rfl h
  | cons s ss ih =>
      cases ss with
      | nil => simp
      | cons t ss =>
          have hslash : "/".utf8ByteSize = 1 := by decide
          rw [String.intercalate_cons_cons, String.utf8ByteSize_append, String.utf8ByteSize_append,
            spread_cons, ← ih (List.cons_ne_nil t ss), hslash]
          omega

theorem intercalate_segments (p : Path) : "/".intercalate p.segments = p.text := by
  apply String.toList_inj.mp
  have hid : String.toList ∘ String.ofList = id := funext fun _ => String.toList_ofList
  rw [String.toList_intercalate, segments, List.map_map, hid, List.map_id,
    splitSlashes_eq_splitOn]
  exact List.intercalate_splitOn '/'

theorem spread_segments (p : Path) : spread p.segments = p.text.utf8ByteSize + 1 := by
  have hne : p.segments ≠ [] := by simpa [segments] using splitSlashes_ne_nil p.text.toList
  rw [← utf8ByteSize_intercalate hne, intercalate_segments]

/-- Segments that say nothing only take room. -/
theorem spread_filterMap_le (ss : List String) :
    spread ((ss.filterMap Component.ofSegment?).map Component.text) ≤ spread ss := by
  induction ss with
  | nil => exact Nat.le_refl 0
  | cons s ss ih =>
      cases hc : Component.ofSegment? s with
      | none =>
          rw [List.filterMap_cons_none hc, spread_cons]
          omega
      | some c =>
          rw [List.filterMap_cons_some hc, List.map_cons, spread_cons, spread_cons,
            Component.text_of_ofSegment? hc]
          omega

theorem spread_spell_pushNormal_le (stack : List Component) {c : Component} (hc : c.Inner) :
    spread (spell (pushNormal stack c)) ≤ spread (spell stack) + (c.text.utf8ByteSize + 1) := by
  have hpush : spread (spell (c :: stack)) = spread (spell stack) + (c.text.utf8ByteSize + 1) := by
    simp
  cases c with
  | root => exact hc.elim
  | current => exact hc.elim
  | name s => exact Nat.le_of_eq hpush
  | parent =>
      cases stack with
      | nil => exact Nat.le_of_eq hpush
      | cons d stack =>
          cases d with
          | root => exact Nat.le_add_right _ _
          | current => exact Nat.le_of_eq hpush
          | parent => exact Nat.le_of_eq hpush
          | name s =>
              rw [spell_cons, spread_append]
              exact Nat.le_trans (Nat.le_add_right _ _) (Nat.le_add_right _ _)

/-- Pushing components takes no more room than they do. -/
theorem spread_spell_foldl_le {cs : List Component} (hcs : ∀ c ∈ cs, c.Inner)
    (stack : List Component) :
    spread (spell (cs.foldl pushNormal stack)) ≤
      spread (spell stack) + spread (cs.map Component.text) := by
  induction cs generalizing stack with
  | nil => exact Nat.le_refl _
  | cons c cs ih =>
      have hstep := spread_spell_pushNormal_le stack (hcs c List.mem_cons_self)
      have hrest := ih (fun d hd => hcs d (List.mem_cons_of_mem c hd)) (pushNormal stack c)
      rw [List.foldl_cons, List.map_cons, spread_cons]
      omega

theorem spread_spell_stack_le (p : Path) : spread (spell p.stack) ≤ spread p.segments := by
  have hfold := spread_spell_foldl_le (fun c => inner_of_mem_steps (p := p)) p.bottom
  rw [← stack_eq] at hfold
  by_cases habsolute : p.isAbsolute = true
  · obtain ⟨s, rest, hsegments⟩ := isAbsolute_iff_segments.mp habsolute
    have hsteps : p.steps = (s :: rest).filterMap Component.ofSegment? := by
      rw [steps, hsegments]
      exact List.filterMap_cons_none rfl
    have hroom := spread_filterMap_le (s :: rest)
    have hbottom : spread (spell p.bottom) = 1 := by
      rw [bottom, if_pos habsolute]
      decide
    rw [hsteps, hbottom] at hfold
    rw [hsegments, spread_cons "" (s :: rest)]
    omega
  · have hroom := spread_filterMap_le p.segments
    rw [bottom, if_neg habsolute] at hfold
    exact Nat.le_trans hfold (by simpa [spell, steps] using hroom)

/-- A normal path is no longer than the path it comes from. -/
theorem utf8ByteSize_normalize_le {p : Path} (h : p.text ≠ "") :
    p.normalize.text.utf8ByteSize ≤ p.text.utf8ByteSize := by
  have hpos : 0 < p.text.utf8ByteSize :=
    Nat.pos_of_ne_zero fun hzero => h (String.utf8ByteSize_eq_zero_iff.mp hzero)
  have hroom := spread_spell_stack_le p
  rw [spread_segments] at hroom
  by_cases hnil : p.stack = []
  · have hdot : p.normalize = ⟨"."⟩ := by
      rw [normalize, normalComponents_components, hnil]
      rfl
    have hsize : ".".utf8ByteSize = 1 := by decide
    rw [hdot, hsize]
    exact hpos
  · rw [normalize_eq_ofComponents hnil, ofComponents]
    split_ifs with hroot
    · have hsize : "/".utf8ByteSize = 1 := by decide
      rw [hsize]
      exact hpos
    · have hspell : spell p.stack ≠ [] := by simpa [spell] using hnil
      have hsize := utf8ByteSize_intercalate hspell
      change ("/".intercalate (spell p.stack)).utf8ByteSize ≤ _
      omega

end Path
end PropSurface
