import Mathlib.Tactic.Common
import PropSurface.FileSystem.Basic

/-!
# Where segments lead

What following segments comes to, as a relation: from one place they lead to another one, through
a number of links.  Unlike the walk itself, the relation can be cut at every segment.

**Definitions.**
* `FileSystem.Leads`: the relation.
* `FileSystem.significant`: segments without dots and empty ones.

**Results.**
* `FileSystem.walk_eq_some_iff`: a walk ends at the place that its segments lead to, if they go
  through no more links than it may follow.
* `FileSystem.leads_append_iff`: segments lead where the second part of them leads from where the
  first part does.
* `FileSystem.Leads.unique`: they lead to one place only.
* `FileSystem.Leads.significant`, `FileSystem.Leads.of_significant`: dots and empty segments are
  not needed, and do no harm on the way to a directory.
-/

namespace PropSurface
namespace FileSystem

/-- From a place, segments lead to another one through a number of links.  Every segment is taken
from a directory. -/
inductive Leads (fs : FileSystem) : Place → List String → Nat → Place → Prop
  | here {here : Place} : Leads fs here [] 0 here
  | stay {here place : Place} {s : String} {rest : List String} {links : Nat}
      (hdirectory : fs.hasDirectory here = true) (hs : s = "" ∨ s = ".")
      (h : Leads fs here rest links place) : Leads fs here (s :: rest) links place
  | up {here place : Place} {rest : List String} {links : Nat}
      (hdirectory : fs.hasDirectory here = true) (h : Leads fs here.tail rest links place) :
      Leads fs here (".." :: rest) links place
  | down {here place : Place} {s : String} {rest : List String} {links : Nat} {e : Entry}
      (hdirectory : fs.hasDirectory here = true) (hs : s ≠ "" ∧ s ≠ "." ∧ s ≠ "..")
      (hentry : fs.entry? (s :: here) = some e) (hlink : ∀ target, e ≠ .link target)
      (h : Leads fs (s :: here) rest links place) : Leads fs here (s :: rest) links place
  /-- The segments of the target are followed first, the others from where they lead to. -/
  | link {here between place : Place} {s : String} {rest : List String} {i j : Nat}
      {target : Path} (hdirectory : fs.hasDirectory here = true)
      (hs : s ≠ "" ∧ s ≠ "." ∧ s ≠ "..") (hentry : fs.entry? (s :: here) = some (.link target))
      (htarget : Leads fs (origin target here).1 (origin target here).2 i between)
      (h : Leads fs between rest j place) : Leads fs here (s :: rest) (i + j + 1) place

variable {fs : FileSystem} {here between place place' : Place} {xs ys : List String}
  {i j links : Nat}

/-! ### Walks -/

/-- The first step of a walk. -/
theorem walk_cons (fs : FileSystem) (absent : Place → Option Place) (links : Nat) (s : String)
    (rest : List String) (here : Place) :
    fs.walk absent links (s :: rest) here =
      if fs.hasDirectory here then
        if s = "" ∨ s = "." then fs.walk absent links rest here
        else if s = ".." then fs.walk absent links rest here.tail
        else
          match fs.entry? (s :: here) with
          | none => if rest = [] then absent (s :: here) else none
          | some (.link target) =>
              match links with
              | 0 => none
              | links + 1 =>
                  fs.walk absent links ((origin target here).2 ++ rest) (origin target here).1
          | some _ => fs.walk absent links rest (s :: here)
      else none := by
  cases links with
  | zero => rfl
  | succ links => rfl

/-- Segments that lead to a place can be followed first. -/
theorem Leads.walk_append (h : fs.Leads here xs i place) (absent : Place → Option Place)
    (links : Nat) (rest : List String) :
    fs.walk absent (links + i) (xs ++ rest) here = fs.walk absent links rest place := by
  induction h generalizing links rest with
  | here => rfl
  | stay hdirectory hs h ih =>
      rw [List.cons_append, walk_cons, if_pos hdirectory, if_pos hs, ih]
  | up hdirectory h ih =>
      rw [List.cons_append, walk_cons, if_pos hdirectory, if_neg (by decide), if_pos rfl, ih]
  | @down _ _ s _ _ e hdirectory hs hentry hlink h ih =>
      rw [List.cons_append, walk_cons, if_pos hdirectory, if_neg (not_or.mpr ⟨hs.1, hs.2.1⟩),
        if_neg hs.2.2, hentry]
      cases e with
      | file bytes => exact ih ..
      | directory => exact ih ..
      | link target => exact absurd rfl (hlink target)
  | @link here between place s rest' i j target hdirectory hs hentry htarget h ihtarget ih =>
      rw [List.cons_append, walk_cons, if_pos hdirectory, if_neg (not_or.mpr ⟨hs.1, hs.2.1⟩),
        if_neg hs.2.2, hentry]
      have hlinks : links + (i + j) = links + j + i := by omega
      calc fs.walk absent (links + (i + j)) ((origin target here).2 ++ (rest' ++ rest))
            (origin target here).1
          = fs.walk absent (links + j) (rest' ++ rest) between := by rw [hlinks, ihtarget]
        _ = fs.walk absent links rest place := ih links rest

theorem Leads.append (h : fs.Leads here xs i between) (h' : fs.Leads between ys j place) :
    fs.Leads here (xs ++ ys) (i + j) place := by
  induction h with
  | here => rwa [Nat.zero_add]
  | stay hdirectory hs h ih => exact .stay hdirectory hs (ih h')
  | up hdirectory h ih => exact .up hdirectory (ih h')
  | down hdirectory hs hentry hlink h ih => exact .down hdirectory hs hentry hlink (ih h')
  | @link _ _ _ _ _ i k _ hdirectory hs hentry htarget h _ ih =>
      have hlinks : i + k + 1 + j = i + (k + j) + 1 := by omega
      exact hlinks ▸ .link hdirectory hs hentry htarget (ih h')

/-- Segments can be cut anywhere. -/
theorem leads_append_iff :
    fs.Leads here (xs ++ ys) links place ↔
      ∃ i j between, links = i + j ∧ fs.Leads here xs i between ∧
        fs.Leads between ys j place := by
  constructor
  · intro h
    induction xs generalizing here links with
    | nil => exact ⟨0, links, here, (Nat.zero_add links).symm, .here, h⟩
    | cons s xs ih =>
        cases h with
        | stay hdirectory hs h =>
            obtain ⟨i, j, between, hlinks, hxs, hys⟩ := ih h
            exact ⟨i, j, between, hlinks, .stay hdirectory hs hxs, hys⟩
        | up hdirectory h =>
            obtain ⟨i, j, between, hlinks, hxs, hys⟩ := ih h
            exact ⟨i, j, between, hlinks, .up hdirectory hxs, hys⟩
        | down hdirectory hs hentry hlink h =>
            obtain ⟨i, j, between, hlinks, hxs, hys⟩ := ih h
            exact ⟨i, j, between, hlinks, .down hdirectory hs hentry hlink hxs, hys⟩
        | @link _ _ _ _ _ k _ _ hdirectory hs hentry htarget h =>
            obtain ⟨i, j, between, hlinks, hxs, hys⟩ := ih h
            exact ⟨k + i + 1, j, between, by omega,
              .link hdirectory hs hentry htarget hxs, hys⟩
  · rintro ⟨i, j, between, rfl, hxs, hys⟩
    exact hxs.append hys

theorem exists_leads_of_walkWith {follow : Place → List String → Option Place}
    (hfollow : ∀ here segments, follow here segments = some place →
      ∃ i < links, fs.Leads here segments i place) :
    ∀ (segments : List String) (here : Place),
      fs.walkWith (fun _ => none) follow segments here = some place →
        ∃ i ≤ links, fs.Leads here segments i place
  | [], here, h => by
      cases h
      exact ⟨0, Nat.zero_le links, .here⟩
  | s :: rest, here, h => by
      have ih := exists_leads_of_walkWith hfollow rest
      rw [walkWith] at h
      by_cases hdirectory : fs.hasDirectory here = true
      swap
      · rw [if_neg hdirectory] at h
        cases h
      rw [if_pos hdirectory] at h
      by_cases hstay : s = "" ∨ s = "."
      · rw [if_pos hstay] at h
        obtain ⟨i, hi, hrest⟩ := ih here h
        exact ⟨i, hi, .stay hdirectory hstay hrest⟩
      rw [if_neg hstay] at h
      by_cases hup : s = ".."
      · rw [if_pos hup] at h
        obtain ⟨i, hi, hrest⟩ := ih here.tail h
        exact ⟨i, hi, hup ▸ .up hdirectory hrest⟩
      rw [if_neg hup] at h
      have hs : s ≠ "" ∧ s ≠ "." ∧ s ≠ ".." :=
        ⟨fun hs => hstay (.inl hs), fun hs => hstay (.inr hs), hup⟩
      split at h
      · simp at h
      · next target hentry =>
          obtain ⟨k, hk, hlink⟩ := hfollow _ _ h
          obtain ⟨i, j, between, rfl, htarget, hrest⟩ := leads_append_iff.mp hlink
          exact ⟨i + j + 1, hk, .link hdirectory hs hentry htarget hrest⟩
      · next e hlink hentry =>
          obtain ⟨i, hi, hrest⟩ := ih (s :: here) h
          exact ⟨i, hi, .down hdirectory hs hentry (fun target he => hlink target he) hrest⟩

/-- What a walk follows leads to where it ends. -/
theorem exists_leads_of_walk {segments : List String}
    (h : fs.walk (fun _ => none) links segments here = some place) :
    ∃ i ≤ links, fs.Leads here segments i place := by
  induction links generalizing segments here with
  | zero =>
      exact exists_leads_of_walkWith (fun _ _ hfollow => by cases hfollow) segments here h
  | succ links ih =>
      refine exists_leads_of_walkWith (fun here segments hfollow => ?_) segments here h
      obtain ⟨i, hi, hleads⟩ := ih hfollow
      exact ⟨i, Nat.lt_succ_of_le hi, hleads⟩

/-- A walk ends at the place that its segments lead to, if they go through no more links than it
may follow. -/
theorem walk_eq_some_iff {segments : List String} :
    fs.walk (fun _ => none) links segments here = some place ↔
      ∃ i ≤ links, fs.Leads here segments i place := by
  refine ⟨exists_leads_of_walk, ?_⟩
  rintro ⟨i, hi, h⟩
  obtain ⟨spare, rfl⟩ := Nat.exists_eq_add_of_le hi
  rw [Nat.add_comm, ← List.append_nil segments, h.walk_append]
  cases spare with
  | zero => rfl
  | succ spare => rfl

/-- Segments lead to one place only. -/
theorem Leads.unique (h : fs.Leads here xs i place) (h' : fs.Leads here xs j place') :
    place = place' := by
  have hwalk := walk_eq_some_iff.mpr ⟨i, Nat.le_add_right i j, h⟩
  have hwalk' := walk_eq_some_iff.mpr ⟨j, Nat.le_add_left j i, h'⟩
  exact Option.some_inj.mp (hwalk.symm.trans hwalk')

/-! ### Directories on the way -/

theorem Leads.hasDirectory_of_cons {s : String} (h : fs.Leads here (s :: xs) links place) :
    fs.hasDirectory here = true := by
  cases h with
  | stay hdirectory hs h => exact hdirectory
  | up hdirectory h => exact hdirectory
  | down hdirectory hs hentry hlink h => exact hdirectory
  | link hdirectory hs hentry htarget h => exact hdirectory

/-- The way to a directory starts at a directory. -/
theorem Leads.hasDirectory (h : fs.Leads here xs links place)
    (hplace : fs.hasDirectory place = true) : fs.hasDirectory here = true := by
  cases xs with
  | nil =>
      cases h
      exact hplace
  | cons s xs => exact h.hasDirectory_of_cons

/-! ### Significant segments -/

/-- Segments without the dots and the empty ones. -/
def significant (xs : List String) : List String :=
  (xs.filterMap Component.ofSegment?).map Component.text

theorem significant_stay {s : String} (hs : s = "" ∨ s = ".") (xs : List String) :
    significant (s :: xs) = significant xs := by
  rw [significant, List.filterMap_cons_none (by rw [Component.ofSegment?, if_pos hs])]
  rfl

theorem significant_cons {s : String} (hs : ¬ (s = "" ∨ s = ".")) (xs : List String) :
    significant (s :: xs) = s :: significant xs := by
  by_cases hdots : s = ".."
  · rw [hdots]
    rfl
  · rw [significant, List.filterMap_cons_some
      (by rw [Component.ofSegment?, if_neg hs, if_neg hdots])]
    rfl

/-- Dots and empty segments are not needed. -/
theorem Leads.significant (h : fs.Leads here xs links place) :
    fs.Leads here (significant xs) links place := by
  induction h with
  | here => exact .here
  | stay hdirectory hs h ih => rwa [significant_stay hs]
  | up hdirectory h ih =>
      rw [significant_cons (by decide)]
      exact .up hdirectory ih
  | down hdirectory hs hentry hlink h ih =>
      rw [significant_cons (not_or.mpr ⟨hs.1, hs.2.1⟩)]
      exact .down hdirectory hs hentry hlink ih
  | link hdirectory hs hentry htarget h _ ih =>
      rw [significant_cons (not_or.mpr ⟨hs.1, hs.2.1⟩)]
      exact .link hdirectory hs hentry htarget ih

/-- Dots and empty segments do no harm on the way to a directory. -/
theorem Leads.of_significant (h : fs.Leads here (FileSystem.significant xs) links place)
    (hplace : fs.hasDirectory place = true) : fs.Leads here xs links place := by
  induction xs generalizing here links with
  | nil => exact h
  | cons s xs ih =>
      by_cases hs : s = "" ∨ s = "."
      · rw [significant_stay hs] at h
        exact .stay (h.hasDirectory hplace) hs (ih h)
      · rw [significant_cons hs] at h
        cases h with
        | stay hdirectory hs' h => exact absurd hs' hs
        | up hdirectory h => exact .up hdirectory (ih h)
        | down hdirectory hs hentry hlink h => exact .down hdirectory hs hentry hlink (ih h)
        | link hdirectory hs hentry htarget h => exact .link hdirectory hs hentry htarget (ih h)

end FileSystem
end PropSurface
