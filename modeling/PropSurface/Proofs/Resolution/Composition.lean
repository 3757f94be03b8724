import PropSurface.Proofs.Resolution.ReferenceGraph

/-!
# Resolution is compositional

Bases are resolved while the declaration that names them is active.  Seen from outside this
makes no difference: the property names of a type are those that its bases have when they are
resolved alone, in order and with repetitions, and then its own.

**Results.**
* `expand_eq_ok_of_subset`: fewer active keys do no harm.
* `props_eq_ok_iff`: property names of a declared type, from those of its bases.
* `Session.resolved_eq_ok_iff_bases`: the same for resolution in sessions with any history.
-/

namespace PropSurface

variable {env : Environment} {m : ParsedModule} {name : String}

/-- An expansion that succeeds does so with fewer active keys, and with the same result. -/
theorem expand_eq_ok_of_subset :
    ∀ {n : Nat} {active fewer : List TypeKey} {m : ParsedModule} {name : String}
      {props : List String},
      fewer ⊆ active → expand env n active m name = .ok props →
      expand env n fewer m name = .ok props := by
  intro n
  induction n with
  | zero =>
      intro active fewer m name props _ h
      cases h
  | succ n ih =>
      intro active fewer m name props hsubset h
      obtain ⟨site, inherited, hmeaning, hfresh, hbases, hprops⟩ := expand_succ_eq_ok_iff.mp h
      refine expand_succ_eq_ok_iff.mpr ⟨site, inherited, hmeaning, ?_, ?_, hprops⟩
      · exact fun hmem => hfresh (hsubset hmem)
      · exact hbases.imp fun base p hp => ih (List.cons_subset_cons site.key hsubset) hp

/-- Property names of a type are made up of those of its bases. -/
theorem exists_bases_of_props_eq_ok (hm : env.Loads m) {site : Site}
    (hsite : m.site? name = some site) {props : List String}
    (h : env.props m name = .ok props) :
    ∃ inherited, List.Forall₂ (fun base p => env.props m base = .ok p)
      site.shape.bases inherited ∧ props = inherited.flatten ++ site.shape.own := by
  have hcovers := Covers.of_loads hm
  -- The limit exceeds the number of types by two: the type itself takes one level, and what
  -- is left must still be roomy for bases that are resolved alone.
  have hroom : env.typeKeys.ncard < env.typeKeys.ncard + 1 := Nat.lt_succ_self _
  rw [← expand_eq_props name env.finite_typeKeys hcovers (Nat.lt_succ_of_lt hroom)] at h
  obtain ⟨site', inherited, hmeaning, _, hbases, hprops⟩ := expand_succ_eq_ok_iff.mp h
  have hsame : site = site' :=
    Denotes.unique (.declared hsite) (denotes_iff.mpr hmeaning)
  subst hsame
  obtain ⟨hmodule, _⟩ := eq_of_site? hsite
  rw [hmodule] at hbases
  refine ⟨inherited, hbases.imp fun base p hp => ?_, hprops⟩
  rw [← expand_eq_props base env.finite_typeKeys hcovers hroom]
  exact expand_eq_ok_of_subset (List.nil_subset _) hp

/-- A declared type has property names if all its bases have them when resolved alone.  Such
a base is settled, so that it cannot lead back to the type. -/
theorem exists_props_of_bases (hm : env.Loads m) {site : Site}
    (hsite : m.site? name = some site)
    (hbases : ∀ base ∈ site.shape.bases, ∃ p, env.props m base = .ok p) :
    ∃ props, env.props m name = .ok props := by
  have hdenotes : Denotes env m name site := .declared hsite
  have hdeclared := hdenotes.isDeclared hm
  obtain ⟨hmodule, _⟩ := eq_of_site? hsite
  have hsettled : ∀ base ∈ site.shape.bases,
      ∃ target, Denotes env site.module base target ∧ Settled env target.key := by
    intro base hbase
    rw [hmodule]
    exact (exists_props_iff hm).mp (hbases base hbase)
  exact (exists_props_iff hm).mpr ⟨site, hdenotes, hdeclared.settled hsettled⟩

/-- Property names of a declared type, from those of its bases. -/
theorem props_eq_ok_iff (hm : env.Loads m) {site : Site} (hsite : m.site? name = some site)
    {props : List String} :
    env.props m name = .ok props ↔
      ∃ inherited, List.Forall₂ (fun base p => env.props m base = .ok p)
        site.shape.bases inherited ∧ props = inherited.flatten ++ site.shape.own := by
  constructor
  · exact exists_bases_of_props_eq_ok hm hsite
  · rintro ⟨inherited, hinherited, rfl⟩
    obtain ⟨props, hprops⟩ :=
      exists_props_of_bases hm hsite (exists_forall₂_iff.mp ⟨inherited, hinherited⟩)
    -- The bases can have no other property names than the given ones.
    obtain ⟨inherited', hinherited', rfl⟩ := exists_bases_of_props_eq_ok hm hsite hprops
    have hunique : Relator.RightUnique fun base p => env.props m base = .ok p :=
      fun base p q hp hq => Except.ok.inj (hp.symm.trans hq)
    rw [hprops, hunique.forall₂ hinherited hinherited']

namespace Session

/-- Resolution of a declared type succeeds exactly if it does so for each of its bases alone,
and then its property names are those of the bases, in order and with repetitions, followed by
its own.  All these resolutions may be made after any calls. -/
theorem resolved_eq_ok_iff_bases (env : Environment) (history : List Call)
    (past : String → List Call) {m : ParsedModule} (hm : env.Loads m) {name : String}
    {site : Site} (hsite : m.site? name = some site) (props : List String) :
    resolved env history m name = .ok props ↔
      ∃ inherited, List.Forall₂ (fun base p => resolved env (past base) m base = .ok p)
        site.shape.bases inherited ∧ props = inherited.flatten ++ site.shape.own := by
  simp only [resolved_eq_props]
  exact props_eq_ok_iff hm hsite

theorem resolved_eq_ok_iff_bases_diamond :
    Diamond.env.Loads Diamond.entry ∧
      ∃ site inherited, Diamond.entry.site? "B" = some site ∧ site.shape = ⟨["L", "T"], ["y"]⟩ ∧
        List.Forall₂ (fun base p => resolved Diamond.env [] Diamond.entry base = .ok p)
          ["L", "T"] inherited ∧
        ["x", "x", "y"] = inherited.flatten ++ ["y"] := by
  have hshape : (Diamond.entry.site? "B").map Site.shape = some ⟨["L", "T"], ["y"]⟩ := by
    decide +kernel
  obtain ⟨site, hsite, hsame⟩ := Option.map_eq_some_iff.mp hshape
  have hiff := resolved_eq_ok_iff_bases Diamond.env [] (fun _ => []) Diamond.loads_entry hsite
    ["x", "x", "y"]
  rw [hsame] at hiff
  obtain ⟨inherited, hbases, hprops⟩ := hiff.mp Diamond.resolved_entry
  exact ⟨Diamond.loads_entry, site, inherited, hsite, hsame, hbases, hprops⟩

end Session
end PropSurface
