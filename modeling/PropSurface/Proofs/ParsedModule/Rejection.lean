import Mathlib.Data.List.Induction
import PropSurface.ParsedModule
import PropSurface.Proofs.Tree.Occurrence

/-!
# Rejected sources

A concrete tree is rejected at its first bad node.  The search for it passes over every subtree
whose flag promises no bad node; where flags are right, nothing is lost by that.

**Definitions.**
* `Concrete.Announced`, `Concrete.Flagged`: the flags of a tree are right.
* `Source.StandsAt`: row and byte column of an offset, told from the text before it.

**Results.**
* `Source.standsAt_iff`: positions are computed as they are told.
* `Concrete.firstBad?_eq_find?`: the search finds what it would find without the flags.
* `ParsedModule.parse_exact`: what is rejected, and what the failure names.
-/

namespace PropSurface

/-! ### Positions -/

namespace Source

/-- An offset stands in a row and at a byte column, both counted from 0: the text before it is that
many whole rows, each with the line end that closes it, and that many bytes more. -/
def StandsAt (source : String) (offset row column : Nat) : Prop :=
  ∃ rows rest : List UInt8,
    (source.toUTF8.extract 0 offset).data.toList = rows ++ rest ∧
      (∀ last ∈ rows.getLast?, last = newline) ∧ rows.count newline = row ∧
      newline ∉ rest ∧ rest.length = column

/-- Every text is whole rows and a rest. -/
theorem exists_rows (bytes : List UInt8) :
    ∃ rows rest : List UInt8, bytes = rows ++ rest ∧
      (∀ last ∈ rows.getLast?, last = newline) ∧ newline ∉ rest := by
  induction bytes using List.reverseRecOn with
  | nil => exact ⟨[], [], rfl, by simp, List.not_mem_nil⟩
  | append_singleton bytes b ih =>
      obtain ⟨rows, rest, rfl, hrows, hrest⟩ := ih
      by_cases hb : b = newline
      · exact ⟨rows ++ rest ++ [b], [], by simp, by simp [hb], List.not_mem_nil⟩
      · refine ⟨rows, rest ++ [b], by simp, hrows, ?_⟩
        simp [hrest, Ne.symm hb]

/-- What follows the last line end of a text, read backwards. -/
theorem takeWhile_reverse_append {rows rest : List UInt8}
    (hrows : ∀ last ∈ rows.getLast?, last = newline) (hrest : newline ∉ rest) :
    (rows ++ rest).reverse.takeWhile (· != newline) = rest.reverse := by
  have hall : ∀ b ∈ rest.reverse, (b != newline) = true := by
    intro b hb
    rw [bne_iff_ne]
    rintro rfl
    exact hrest (List.mem_reverse.mp hb)
  have hstop : rows.reverse.takeWhile (· != newline) = [] := by
    rw [← List.head?_reverse] at hrows
    cases hcases : rows.reverse with
    | nil => rfl
    | cons last before =>
        rw [hcases] at hrows
        rw [hrows last rfl]
        exact List.takeWhile_cons_of_neg (by simp)
  rw [List.reverse_append, List.takeWhile_append_of_pos hall, hstop, List.append_nil]

theorem standsAt_iff {source : String} {offset row column : Nat} :
    StandsAt source offset row column ↔ position source offset = (row, column) := by
  have hposition : ∀ rows rest : List UInt8,
      (source.toUTF8.extract 0 offset).data.toList = rows ++ rest →
      (∀ last ∈ rows.getLast?, last = newline) → newline ∉ rest →
      position source offset = (rows.count newline, rest.length) := by
    intro rows rest hbefore hrows hrest
    rw [position, hbefore, takeWhile_reverse_append hrows hrest, List.count_append,
      List.count_eq_zero.mpr hrest, Nat.add_zero, List.length_reverse]
  constructor
  · rintro ⟨rows, rest, hbefore, hrows, rfl, hrest, rfl⟩
    exact hposition rows rest hbefore hrows hrest
  · intro h
    obtain ⟨rows, rest, hbefore, hrows, hrest⟩ := exists_rows _
    rw [hposition rows rest hbefore hrows hrest, Prod.mk.injEq] at h
    exact ⟨rows, rest, hbefore, hrows, h.1, hrest, h.2⟩

end Source

/-! ### The search -/

namespace Concrete

/-- Every node that is not bad itself has the flag if and only if something below it is bad. -/
def Announced (c : Concrete) : Prop :=
  ∀ d : Concrete, Tree.Occurs d c → d.label.isBad = false →
    (d.label.hasError = true ↔ ∃ t ∈ d.preorder, t.isBad = true)

/-- The flags of a tree are right: a node has the flag if and only if it or something below it is
bad.  Nothing is asked of bad nodes inside the tree: a token that fits no rule has no flag when it
stands in a node that is an error already. -/
structure Flagged (c : Concrete) : Prop where
  root : c.label.hasError = true ↔ ∃ t ∈ c.preorder, t.isBad = true
  inner : c.Announced

theorem announced_node {t : Token} {ts : List Concrete} :
    Announced (.node t ts) ↔
      (t.isBad = false →
        (t.hasError = true ↔ ∃ s ∈ (Tree.node t ts).preorder, s.isBad = true)) ∧
      ∀ c ∈ ts, Announced c := by
  constructor
  · intro h
    exact ⟨h _ .here, fun c hc d hd => h d (.inside hc hd)⟩
  · rintro ⟨hroot, hbelow⟩ d (_ | ⟨hc, hd⟩)
    · exact hroot
    · exact hbelow _ hc d hd

mutual

/-- The search finds what it would find without the flags. -/
theorem firstBad?_eq_find? :
    ∀ c : Concrete, Announced c → c.firstBad? = c.preorder.find? Token.isBad
  | .node t ts, h => by
      obtain ⟨hroot, hbelow⟩ := announced_node.mp h
      have hamong := firstBadAmong?_eq_find? ts hbelow
      rw [firstBad?, Tree.preorder]
      by_cases hbad : t.isBad = true
      · rw [if_pos hbad, List.find?_cons_of_pos hbad]
      rw [if_neg hbad, List.find?_cons_of_neg hbad]
      by_cases hflag : t.hasError = true
      · rw [if_pos hflag, hamong]
      · -- What is passed over holds no bad node.
        rw [if_neg hflag, eq_comm, List.find?_eq_none]
        intro s hs hsbad
        exact hflag ((hroot (by simpa using hbad)).mpr ⟨s, List.mem_cons_of_mem _ hs, hsbad⟩)

theorem firstBadAmong?_eq_find? :
    ∀ ts : List Concrete, (∀ c ∈ ts, Announced c) →
      firstBadAmong? ts = (Tree.forestPreorder ts).find? Token.isBad
  | [], _ => rfl
  | t :: ts, h => by
      have hfirst := firstBad?_eq_find? t (h t List.mem_cons_self)
      have hrest := firstBadAmong?_eq_find? ts fun c hc => h c (List.mem_cons_of_mem _ hc)
      rw [firstBadAmong?, Tree.forestPreorder, List.find?_append, hfirst, hrest]
      cases t.preorder.find? Token.isBad with
      | none => rfl
      | some bad => rfl

end

theorem badPosition_of_firstBad? {c : Concrete} {source : String} {bad : Token}
    (h : c.firstBad? = some bad) :
    c.badPosition source =
      ((Source.position source bad.span.start).1 + 1,
        (Source.position source bad.span.start).2) := by
  rw [badPosition, h]

end Concrete

/-! ### Parsing -/

namespace ParsedModule

variable {path : Path} {source : String} {c : Concrete}

theorem parse_of_flag (h : c.label.hasError = true) :
    parse path source c =
      .error (.parseError path (c.badPosition source).1 (c.badPosition source).2) := by
  rw [parse, if_pos h]

theorem parse_of_not_flag (h : ¬ c.label.hasError = true) :
    parse path source c = .ok ⟨path, source, Lowering.lowerRoot source c⟩ := by
  rw [parse, if_neg h]

/-- A source is rejected if and only if its concrete tree, whose flags are right, has a bad node.
The failure then names the path, and the row, counted from 1, and the byte column at which the
first bad node in preorder starts; this is the node that a search finds which ignores the flags.
Otherwise the source is read. -/
theorem parse_exact (path : Path) (source : String) {c : Concrete} (h : c.Flagged) :
    c.firstBad? = c.preorder.find? Token.isBad ∧
      ((∃ e, parse path source c = .error e) ↔ ∃ t ∈ c.preorder, t.isBad = true) ∧
      (∀ before bad after, c.preorder = before ++ bad :: after →
        (∀ t ∈ before, t.isBad = false) → bad.isBad = true →
          ∃ row column, Source.StandsAt source bad.span.start row column ∧
            parse path source c = .error (.parseError path (row + 1) column)) ∧
      ((∀ t ∈ c.preorder, t.isBad = false) →
        parse path source c = .ok ⟨path, source, Lowering.lowerRoot source c⟩) := by
  have hsearch := Concrete.firstBad?_eq_find? c h.inner
  refine ⟨hsearch, ?_, ?_, ?_⟩
  · rw [← h.root]
    by_cases hflag : c.label.hasError = true
    · exact iff_of_true ⟨_, parse_of_flag hflag⟩ hflag
    · refine iff_of_false ?_ hflag
      rintro ⟨e, he⟩
      rw [parse_of_not_flag hflag] at he
      cases he
  · intro before bad after hpreorder hbefore hbad
    have hflag : c.label.hasError = true := h.root.mpr ⟨bad, by simp [hpreorder], hbad⟩
    have hfirst : c.firstBad? = some bad := by
      have hnone : before.find? Token.isBad = none :=
        List.find?_eq_none.mpr fun t ht => by simp [hbefore t ht]
      rw [hsearch, hpreorder, List.find?_append, hnone, Option.none_or,
        List.find?_cons_of_pos hbad]
    refine ⟨(Source.position source bad.span.start).1, (Source.position source bad.span.start).2,
      Source.standsAt_iff.mpr rfl, ?_⟩
    rw [parse_of_flag hflag, Concrete.badPosition_of_firstBad? hfirst]
  · intro hgood
    refine parse_of_not_flag fun hflag => ?_
    obtain ⟨t, ht, hbad⟩ := h.root.mp hflag
    rw [hgood t ht] at hbad
    cases hbad

end ParsedModule

/-! ### A character that fits no rule

A declaration is followed by a character that the language does not know.  It makes up an error
together with an error token, which has no flag of its own. -/

namespace Stray

def source : String := "let ok = 1;\n  \x00"

def good (kind : String) (start stop : Nat) (named : Bool) (below : List Concrete) : Concrete :=
  .node ⟨kind, ⟨start, stop⟩, named, false, false, false, []⟩ below

def declaration : Concrete :=
  good "lexical_declaration" 0 11 true
    [ good "let" 0 3 false [],
      good "variable_declarator" 4 10 true
        [good "identifier" 4 6 true [], good "=" 7 8 false [], good "number" 9 10 true []],
      good ";" 10 11 false [] ]

def bad : Token := ⟨"ERROR", ⟨14, 15⟩, true, true, false, true, []⟩

def root : Concrete :=
  .node ⟨"program", ⟨0, 15⟩, true, false, false, true, []⟩
    [declaration, .node bad [.node ⟨"ERROR", ⟨14, 15⟩, true, true, false, false, []⟩ []]]

end Stray

/-- The error is in the second row, after two bytes. -/
theorem ParsedModule.parse_exact_stray :
    Stray.root.Flagged ∧
      parse ⟨"m.ts"⟩ Stray.source Stray.root = .error (.parseError ⟨"m.ts"⟩ 2 2) := by
  have hannounced : Stray.root.Announced := by
    simp [Stray.root, Stray.declaration, Stray.good, Stray.bad, Concrete.announced_node,
      Tree.preorder, Tree.forestPreorder, Token.isBad]
  have hflagged : Stray.root.Flagged := ⟨by decide, hannounced⟩
  obtain ⟨-, -, hfailure, -⟩ := parse_exact ⟨"m.ts"⟩ Stray.source hflagged
  obtain ⟨row, column, hstands, hparse⟩ :=
    hfailure (Stray.root.label :: Stray.declaration.preorder) Stray.bad _ (by rfl) (by decide) rfl
  have hposition : Source.position Stray.source Stray.bad.span.start = (1, 2) := by decide +kernel
  have hstands' := Source.standsAt_iff.mp hstands
  rw [hposition, Prod.mk.injEq] at hstands'
  obtain ⟨rfl, rfl⟩ := hstands'
  exact ⟨hflagged, hparse⟩

end PropSurface
