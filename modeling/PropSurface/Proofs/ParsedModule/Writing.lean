import Mathlib.Data.List.Forall2
import PropSurface.Proofs.ParsedModule.NodeTable
import PropSurface.Proofs.Session.Transparency

/-!
# Writing into a table

The elements of a concrete node can be written straight into a table, below any of its rows: row
after row is added at the end, and the number of a row is all that is kept of it.  This comes to
the same as lowering the node first and adding the rows of its elements then.

**Definitions.**
* `Lowering.Writer`: what adds rows below a given one.
* `Lowering.write`: the writer of a concrete node in a role, with one writer per form of a node.
* `Lowering.writeTargets`: the loop over an extends clause, which keeps the number of the target
  that type arguments belong to.
* `Lowering.writeRoot`: the table that the writers of a source leave.
* `Lowering.Writes`: a writer adds the rows of a forest.

**Results.**
* `Lowering.writes_writeNode`: each form is written as it is planned.
* `Lowering.writes_write`: a node is written as it is lowered.
* `Lowering.Writes.grown`: writers keep a table well-formed.
* `ParsedModule.exists_parse_wellFormed`: every readable source has the table that the writers of
  its statements leave, which is well-formed.
-/

namespace PropSurface
namespace Lowering

/-! ### Writers -/

/-- Adds rows to a table, below the row of the given number. -/
abbrev Writer := Nat → StateM (List Slot) Unit

/-- A child with its writer. -/
abbrev Draft := Token × Writer

/-- Add a row below node `p`.  The answer is its number. -/
def addRow (p : Nat) (e : Element) : StateM (List Slot) Nat :=
  fun slots => (slots.length, Slot.push slots p e)

def writeRow (e : Element) : Writer := fun p => do
  let _ ← addRow p e

def writeIdentifier (source : String) (t : Token) : Writer :=
  writeRow ⟨.identifier (Source.slice source t.span), t.span⟩

def writeString (source : String) (t : Token) : Writer :=
  writeRow ⟨.stringLiteral (unquoted source t), t.span⟩

/-- Write a token, if there is one. -/
def writeSome (writeToken : Token → Writer) : Option Token → Writer
  | none => fun _ => pure ()
  | some t => writeToken t

/-- Keywords, one row each. -/
def writeKeywords : List Element → Writer
  | [], _ => pure ()
  | e :: es, p => do
      writeRow e p
      writeKeywords es p

/-- All children in the list, one after the other. -/
def writeAll : List Draft → Writer
  | [], _ => pure ()
  | d :: ds, p => do
      d.2 p
      writeAll ds p

/-- The children that carry meaning. -/
def writeMeaningful (drafts : List Draft) : Writer :=
  writeAll (drafts.filter (·.1.isMeaningful))

/-- The first child with the property, if there is one. -/
def writeFirst (has : Token → Bool) (drafts : List Draft) : Writer :=
  match drafts.find? (has ·.1) with
  | none => fun _ => pure ()
  | some d => d.2

/-- One row for the node, below it the keywords and the children that carry meaning. -/
def writeWrap (payload : Payload) (t : Token) (keywords : List Element) (drafts : List Draft) :
    Writer := fun p => do
  let id ← addRow p ⟨payload, t.span⟩
  writeKeywords keywords id
  writeMeaningful drafts id

def writeSpecifier (source : String) (make : String → Option String → Payload) (t : Token)
    (kids : List Token) (drafts : List Draft) : Writer :=
  match Token.filling? "name" kids with
  | none => writeWrap (.unknown t.kind) t [] drafts
  | some name => fun p => do
      let rename := Token.filling? "alias" kids
      let id ← addRow p ⟨make (unquoted source name) (rename.map (unquoted source)), t.span⟩
      writeIdentifier source name id
      writeSome (writeIdentifier source) rename id

/-- An exported declaration is written where the statement stands, not below a row of its own. -/
def writeExport (source : String) (t : Token) (kids : List Token) (drafts : List Draft) : Writer :=
  match exportForm kids with
  | .declaration field => writeFirst (·.fills field) drafts
  | .value => fun p => do
      let id ← addRow p ⟨.exportAssignment, t.span⟩
      writeFirst (·.fills "value") drafts id
  | .assignment => writeWrap .exportAssignment t [] drafts
  | .clause => fun p => do
      let id ← addRow p ⟨.exportDeclaration, t.span⟩
      writeFirst (fun k => decide (k.rule = .exportClause)) drafts id
      writeSome (writeString source) (Token.filling? "source" kids) id
  | .other => writeWrap (.unknown t.kind) t [] drafts

def writePlain (source : String) (keywords : List Element) (t : Token) (kids : List Token)
    (drafts : List Draft) : Writer :=
  match t.rule with
  | .importStatement => writeWrap .importDeclaration t [] drafts
  | .exportStatement => writeExport source t kids drafts
  | .classLike =>
      let name := (Token.filling? "name" kids).map (Source.slice source ·.span)
      writeWrap (.classDeclaration name) t keywords drafts
  | .interfaceDeclaration =>
      writeWrap (.interfaceDeclaration (declaredName source kids)) t keywords drafts
  | .typeAliasDeclaration =>
      writeWrap (.typeAliasDeclaration (declaredName source kids)) t keywords drafts
  | .identifier => writeIdentifier source t
  | .propertyIdentifier => writeIdentifier source t
  | .typeIdentifier => writeIdentifier source t
  | .otherIdentifier => writeIdentifier source t
  | .string => writeString source t
  | _ => writeWrap (.unknown t.kind) t keywords drafts

/-- The targets below the row of an extends clause, child after child.  Type arguments go below
the current target, the one of the last expression; before any expression they get a target of
their own. -/
def writeTargets (clause : Nat) : Option Nat → List Draft → StateM (List Slot) Unit
  | _, [] => pure ()
  | current, (t, writer) :: rest =>
      if t.rule = .typeArguments then do
        let id ← match current with
          | some id => pure id
          | none => addRow clause ⟨.heritageTarget, t.span⟩
        writer id
        writeTargets clause current rest
      else do
        let id ← addRow clause ⟨.heritageTarget, t.span⟩
        writer id
        writeTargets clause (some id) rest

def writeExtends (t : Token) (drafts : List Draft) : Writer := fun p => do
  let id ← addRow p ⟨.heritageClause .extending, t.span⟩
  writeTargets id none (drafts.filter (·.1.isMeaningful))

def writeHeritage (t : Token) (kids : List Token) (drafts : List Draft) : Writer :=
  if (kids.filter (·.isMeaningful)).any
      (fun k => k.rule = .extendsClause || k.rule = .implementsClause) then
    writeMeaningful drafts
  else writeExtends t drafts

/-- The name of a generic type and its arguments. -/
def writeGeneric (source : String) (kids : List Token) (drafts : List Draft) : Writer := fun p => do
  writeSome (writeIdentifier source) (genericName? kids) p
  writeFirst (·.fills "type_arguments") drafts p

def writeHeritageType (source : String) (t : Token) (kids : List Token) (drafts : List Draft) :
    Writer := fun p => do
  let id ← addRow p ⟨.heritageTarget, t.span⟩
  match t.rule with
  | .genericType => writeGeneric source kids drafts id
  | _ => writeIdentifier source t id

/-- A reference to a type: its row, and below it the name. -/
def writeReference (source : String) (t : Token) : Writer := fun p => do
  let id ← addRow p ⟨.typeReference (Source.slice source t.span), t.span⟩
  writeIdentifier source t id

def writeType (source : String) (t : Token) (kids : List Token) (drafts : List Draft) : Writer :=
  match t.rule with
  | .typeIdentifier => writeReference source t
  | .nestedTypeIdentifier => writeReference source t
  | .genericType => fun p => do
      let text := ((genericName? kids).map (Source.slice source ·.span)).getD ""
      let id ← addRow p ⟨.typeReference text, t.span⟩
      writeGeneric source kids drafts id
  | .objectType => writeWrap .typeLiteral t [] drafts
  | .intersectionType => writeWrap .intersectionType t [] drafts
  | .annotatedType => writeMeaningful drafts
  | .parenthesizedType => writeMeaningful drafts
  | .identifier => writeIdentifier source t
  | .propertyIdentifier => writeIdentifier source t
  | .string => writeString source t
  | _ => writeWrap (.unknown t.kind) t [] drafts

def writeMember (source : String) (t : Token) (kids : List Token) (drafts : List Draft) : Writer :=
  match t.rule, Token.filling? "name" kids with
  | .propertySignature, some name => fun p => do
      let id ← addRow p ⟨.propertySignature (unquoted source name), t.span⟩
      writeIdentifier source name id
      writeFirst (·.fills "type") drafts id
  | .methodSignature, some name => fun p => do
      let id ← addRow p ⟨.methodSignature (unquoted source name), t.span⟩
      writeIdentifier source name id
  | _, _ => writePlain source [] t kids drafts

/-- The writer of a node with the given children in a role. -/
def writeNode (source : String) (role : Role) (t : Token) (kids : List Token)
    (drafts : List Draft) : Writer :=
  match role with
  | .plain keywords => writePlain source keywords t kids drafts
  | .importClause => writeWrap .importClause t [] drafts
  | .namedImports => writeWrap .namedImports t [] drafts
  | .exportClause => writeWrap .namedExports t [] drafts
  | .importSpecifier => writeSpecifier source .importSpecifier t kids drafts
  | .exportSpecifier => writeSpecifier source .exportSpecifier t kids drafts
  | .classHeritage => writeHeritage t kids drafts
  | .extendsClause => writeExtends t drafts
  | .typeClause heritage => writeWrap (.heritageClause heritage) t [] drafts
  | .heritageType => writeHeritageType source t kids drafts
  | .instantiation => writeMeaningful drafts
  | .interfaceBody => writeMeaningful drafts
  | .member => writeMember source t kids drafts
  | .typeArguments => writeMeaningful drafts
  | .type => writeType source t kids drafts
  | .operand =>
      -- The operands of an inner intersection go below the outer one.
      if t.rule = .intersectionType then writeMeaningful drafts
      else writeType source t kids drafts
  | .name => writeIdentifier source t
  | .ignored => fun _ => pure ()

mutual

/-- The writer of a concrete node that is read in a role. -/
def write (source : String) (role : Role) : Concrete → Writer
  | .node t ts =>
      writeNode source role t (ts.map Tree.label)
        (drafts source (plan source role t (ts.map Tree.label)).roleOf ts)

/-- The children of a node, each with its writer. -/
def drafts (source : String) (roleOf : Token → Role) : List Concrete → List Draft
  | [] => []
  | t :: ts => (t.label, write source (roleOf t.label) t) :: drafts source roleOf ts

end

/-- The table that the writers of the statements leave, below the row of the source file. -/
def writeRoot (source : String) (root : Concrete) : List Slot :=
  (writeMeaningful (drafts source (fun _ => .plain []) root.children) 0
    [⟨none, ⟨.sourceFile, root.label.span⟩, []⟩]).2

/-! ### What writers add -/

/-- A writer adds the rows of a forest, whatever the table. -/
def Writes (writer : Writer) (forest : List Lowered) : Prop :=
  ∀ (p : Nat) (slots : List Slot), writer p slots = ((), Slot.pushForest slots p forest)

namespace Writes

variable {writer writer' : Writer} {forest forest' : List Lowered}

theorem skip : Writes (fun _ => pure ()) [] := fun _ _ => rfl

theorem append (h : Writes writer forest) (h' : Writes writer' forest') :
    Writes (fun p => do writer p; writer' p) (forest ++ forest') := by
  intro p slots
  calc (do writer p; writer' p : StateM (List Slot) Unit) slots
      = writer' p (writer p slots).2 := rfl
    _ = ((), Slot.pushForest slots p (forest ++ forest')) := by
        rw [h, h', Slot.pushForest_append]

/-- A row, and below it what another writer adds. -/
theorem node {e : Element} (h : Writes writer forest) :
    Writes (fun p => do let id ← addRow p e; writer id) [.node e forest] := by
  intro p slots
  exact h slots.length (Slot.push slots p e)

theorem row (e : Element) : Writes (writeRow e) [leaf e] := fun _ _ => rfl

theorem identifier (source : String) (t : Token) :
    Writes (writeIdentifier source t) [Lowering.identifier source t] := row _

theorem string (source : String) (t : Token) :
    Writes (writeString source t) [stringLiteral source t] := row _

theorem optional {writeToken : Token → Writer} {lowerToken : Token → Lowered}
    (h : ∀ t, Writes (writeToken t) [lowerToken t]) (t : Option Token) :
    Writes (writeSome writeToken t) (t.map lowerToken).toList := by
  cases t with
  | none => exact skip
  | some t => exact h t

theorem keywords (es : List Element) : Writes (writeKeywords es) (es.map leaf) := by
  induction es with
  | nil => exact skip
  | cons e es ih => exact (row e).append ih

/-- A writer below a rightmost node keeps a table well-formed, and leaves the node rightmost. -/
theorem grown (h : Writes writer forest) {p : Nat} {slots : List Slot}
    (hslots : Slot.WellFormed slots) (hp : Slot.Rightmost slots p) :
    Slot.Grown slots p (writer p slots).2 := by
  rw [h]
  exact Slot.grown_pushForest hslots hp forest

end Writes

/-- A child with its writer, and the same child with its lowered form. -/
def Agrees (draft : Draft) (part : Part) : Prop := draft.1 = part.1 ∧ Writes draft.2 part.2

section Children

variable {drafts : List Draft} {parts : List Part}

theorem writes_writeAll (h : List.Forall₂ Agrees drafts parts) :
    Writes (writeAll drafts) (parts.flatMap (·.2)) := by
  induction h with
  | nil => exact .skip
  | cons hhead _ ih => exact hhead.2.append ih

theorem forall₂_filter (h : List.Forall₂ Agrees drafts parts) (has : Token → Bool) :
    List.Forall₂ Agrees (drafts.filter (has ·.1)) (parts.filter (has ·.1)) :=
  List.rel_filter (fun _ _ hagrees => iff_of_eq (congrArg (has · = true) hagrees.1)) h

theorem writes_writeMeaningful (h : List.Forall₂ Agrees drafts parts) :
    Writes (writeMeaningful drafts) (meaningful parts) :=
  writes_writeAll (forall₂_filter h _)

theorem writes_writeFirst (h : List.Forall₂ Agrees drafts parts) (has : Token → Bool) :
    Writes (writeFirst has drafts) (((parts.find? (has ·.1)).map (·.2)).getD []) := by
  unfold writeFirst
  induction h with
  | nil => exact .skip
  | @cons draft part _ _ hhead _ ih =>
      rw [List.find?_cons, List.find?_cons, hhead.1]
      cases has part.1 with
      | true => exact hhead.2
      | false => exact ih

theorem writes_writeWrap (h : List.Forall₂ Agrees drafts parts) (payload : Payload) (t : Token)
    (keywords : List Element) :
    Writes (writeWrap payload t keywords drafts) (wrap payload t (keywords.map leaf) parts) :=
  .node ((Writes.keywords keywords).append (writes_writeMeaningful h))

/-! ### Forms of nodes -/

theorem writes_writeSpecifier (h : List.Forall₂ Agrees drafts parts) (source : String)
    (make : String → Option String → Payload) (t : Token) (kids : List Token) :
    Writes (writeSpecifier source make t kids drafts)
      ((planSpecifier source make t kids).build parts) := by
  unfold writeSpecifier planSpecifier
  cases Token.filling? "name" kids with
  | none => exact writes_writeWrap h _ t []
  | some name =>
      exact .node ((Writes.identifier source name).append (.optional (.identifier source) _))

theorem writes_writeExport (h : List.Forall₂ Agrees drafts parts) (source : String) (t : Token)
    (kids : List Token) :
    Writes (writeExport source t kids drafts) ((planExport source t kids).build parts) := by
  unfold writeExport planExport
  cases exportForm kids with
  | declaration field => exact writes_writeFirst h _
  | value => exact .node (writes_writeFirst h _)
  | assignment => exact writes_writeWrap h _ t []
  | clause => exact .node ((writes_writeFirst h _).append (.optional (.string source) _))
  | other => exact writes_writeWrap h _ t []

theorem writes_writePlain (h : List.Forall₂ Agrees drafts parts) (source : String)
    (keywords : List Element) (t : Token) (kids : List Token) :
    Writes (writePlain source keywords t kids drafts)
      ((planPlain source keywords t kids).build parts) := by
  unfold writePlain planPlain
  cases t.rule with
  | importStatement => exact writes_writeWrap h _ t []
  | exportStatement => exact writes_writeExport h source t kids
  | identifier => exact .identifier source t
  | propertyIdentifier => exact .identifier source t
  | typeIdentifier => exact .identifier source t
  | otherIdentifier => exact .identifier source t
  | string => exact .string source t
  | _ => exact writes_writeWrap h _ t keywords

/-- A new target, what a child adds below it, and what is written after that. -/
theorem run_newTarget {writer : Writer} {forest : List Lowered} (h : Writes writer forest)
    (clause : Nat) (t : Token) (next : Nat → StateM (List Slot) Unit) (slots : List Slot) :
    (do
      let id ← addRow clause ⟨.heritageTarget, t.span⟩
      writer id
      next id : StateM (List Slot) Unit) slots =
      next slots.length (Slot.pushForest slots clause [target t forest]) := by
  change next slots.length (writer slots.length (Slot.push slots clause _)).2 = _
  rw [h]
  rfl

/-- More below a target that has just been added. -/
theorem pushForest_target (slots : List Slot) (clause : Nat) (t : Token)
    (below more rest : List Lowered) :
    Slot.pushForest
        (Slot.pushForest (Slot.pushForest slots clause [target t below]) slots.length more)
        clause rest =
      Slot.pushForest slots clause (target t (below ++ more) :: rest) := by
  change Slot.pushForest (Slot.pushForest (Slot.pushForest _ _ below) _ more) _ _ = _
  rw [← Slot.pushForest_append]
  rfl

/-- The rows of targets, while there is a current one: the type arguments in front of the first
expression are added below it. -/
theorem run_writeTargets_some (h : List.Forall₂ Agrees drafts parts) (clause id : Nat)
    (slots : List Slot) :
    writeTargets clause (some id) drafts slots = ((),
      Slot.pushForest (Slot.pushForest slots id ((pairTargets parts).1.flatMap (·.2))) clause
        (pairTargets parts).2) := by
  induction h generalizing id slots with
  | nil => rfl
  | @cons draft part drafts parts hhead _ ih =>
      obtain ⟨token, writer⟩ := draft
      obtain ⟨t, forest⟩ := part
      obtain ⟨rfl, hwriter⟩ : token = t ∧ Writes writer forest := hhead
      by_cases harguments : token.rule = .typeArguments
      · simp only [writeTargets, pairTargets, harguments, if_true]
        change writeTargets clause (some id) drafts (writer id slots).2 = _
        rw [hwriter, ih, List.flatMap_cons, Slot.pushForest_append]
      · simp only [writeTargets, pairTargets, harguments, if_false]
        rw [run_newTarget hwriter clause token
          (fun id => writeTargets clause (some id) drafts), ih, pushForest_target]
        rfl

/-- The rows of targets before any expression: type arguments get targets of their own. -/
theorem run_writeTargets_none (h : List.Forall₂ Agrees drafts parts) (clause : Nat)
    (slots : List Slot) :
    writeTargets clause none drafts slots = ((), Slot.pushForest slots clause
      ((pairTargets parts).1.map (fun part => target part.1 part.2) ++ (pairTargets parts).2)) := by
  induction h generalizing slots with
  | nil => rfl
  | @cons draft part drafts parts hhead htail ih =>
      obtain ⟨token, writer⟩ := draft
      obtain ⟨t, forest⟩ := part
      obtain ⟨rfl, hwriter⟩ : token = t ∧ Writes writer forest := hhead
      by_cases harguments : token.rule = .typeArguments
      · simp only [writeTargets, pairTargets, harguments, if_true]
        rw [run_newTarget hwriter clause token (fun _ => writeTargets clause none drafts), ih,
          ← Slot.pushForest_append]
        rfl
      · simp only [writeTargets, pairTargets, harguments, if_false]
        rw [run_newTarget hwriter clause token
          (fun id => writeTargets clause (some id) drafts), run_writeTargets_some htail,
          pushForest_target]
        rfl

theorem writes_writeExtends (h : List.Forall₂ Agrees drafts parts) (t : Token) :
    Writes (writeExtends t drafts) ((planExtends t).build parts) :=
  .node (run_writeTargets_none (forall₂_filter h _))

theorem writes_writeHeritage (h : List.Forall₂ Agrees drafts parts) (t : Token)
    (kids : List Token) :
    Writes (writeHeritage t kids drafts) ((planHeritage t kids).build parts) := by
  unfold writeHeritage planHeritage
  split_ifs
  · exact writes_writeMeaningful h
  · exact writes_writeExtends h t

theorem writes_writeGeneric (h : List.Forall₂ Agrees drafts parts) (source : String)
    (kids : List Token) :
    Writes (writeGeneric source kids drafts)
      (((genericName? kids).map (identifier source)).toList ++ filling "type_arguments" parts) :=
  (Writes.optional (.identifier source) _).append (writes_writeFirst h _)

theorem writes_writeHeritageType (h : List.Forall₂ Agrees drafts parts) (source : String)
    (t : Token) (kids : List Token) :
    Writes (writeHeritageType source t kids drafts)
      ((planHeritageType source t kids).build parts) := by
  unfold writeHeritageType planHeritageType
  cases t.rule with
  | genericType => exact .node (writes_writeGeneric h source kids)
  | _ => exact .node (.identifier source t)

theorem writes_writeType (h : List.Forall₂ Agrees drafts parts) (source : String) (t : Token)
    (kids : List Token) :
    Writes (writeType source t kids drafts) ((planType source t kids).build parts) := by
  unfold writeType planType
  cases t.rule with
  | typeIdentifier => exact .node (.identifier source t)
  | nestedTypeIdentifier => exact .node (.identifier source t)
  | genericType => exact .node (writes_writeGeneric h source kids)
  | annotatedType => exact writes_writeMeaningful h
  | parenthesizedType => exact writes_writeMeaningful h
  | identifier => exact .identifier source t
  | propertyIdentifier => exact .identifier source t
  | string => exact .string source t
  | _ => exact writes_writeWrap h _ t []

theorem writes_writeMember (h : List.Forall₂ Agrees drafts parts) (source : String) (t : Token)
    (kids : List Token) :
    Writes (writeMember source t kids drafts) ((planMember source t kids).build parts) := by
  unfold writeMember planMember
  cases Token.filling? "name" kids with
  | none =>
      cases t.rule with
      | _ => exact writes_writePlain h source [] t kids
  | some name =>
      cases t.rule with
      | propertySignature =>
          exact .node ((Writes.identifier source name).append (writes_writeFirst h _))
      | methodSignature => exact .node (.identifier source name)
      | _ => exact writes_writePlain h source [] t kids

/-- Each form of a node is written as it is planned. -/
theorem writes_writeNode (h : List.Forall₂ Agrees drafts parts) (source : String) (role : Role)
    (t : Token) (kids : List Token) :
    Writes (writeNode source role t kids drafts) ((plan source role t kids).build parts) := by
  cases role with
  | plain keywords => exact writes_writePlain h source keywords t kids
  | importSpecifier => exact writes_writeSpecifier h source .importSpecifier t kids
  | exportSpecifier => exact writes_writeSpecifier h source .exportSpecifier t kids
  | classHeritage => exact writes_writeHeritage h t kids
  | extendsClause => exact writes_writeExtends h t
  | heritageType => exact writes_writeHeritageType h source t kids
  | instantiation => exact writes_writeMeaningful h
  | interfaceBody => exact writes_writeMeaningful h
  | member => exact writes_writeMember h source t kids
  | typeArguments => exact writes_writeMeaningful h
  | type => exact writes_writeType h source t kids
  | operand =>
      unfold writeNode plan
      split_ifs
      · exact writes_writeMeaningful h
      · exact writes_writeType h source t kids
  | name => exact .identifier source t
  | ignored => exact .skip
  | _ => exact writes_writeWrap h _ t []

end Children

/-! ### Nodes and modules -/

mutual

/-- A node is written as it is lowered. -/
theorem writes_write (source : String) (role : Role) :
    ∀ t : Concrete, Writes (write source role t) (lower source role t)
  | .node t ts => by
      rw [write, lower]
      exact writes_writeNode (forall₂_drafts source _ ts) source role t _

theorem forall₂_drafts (source : String) (roleOf : Token → Role) :
    ∀ ts : List Concrete,
      List.Forall₂ Agrees (drafts source roleOf ts) (lowerParts source roleOf ts)
  | [] => .nil
  | t :: ts => by
      rw [drafts, lowerParts]
      exact .cons ⟨rfl, writes_write source _ t⟩ (forall₂_drafts source roleOf ts)

end

/-- The statements add the rows of their elements. -/
theorem writes_statements (source : String) (root : Concrete) :
    Writes (writeMeaningful (drafts source (fun _ => .plain []) root.children))
      (lowerRoot source root).children :=
  writes_writeMeaningful (forall₂_drafts source _ root.children)

theorem writeRoot_eq (source : String) (root : Concrete) :
    writeRoot source root =
      Slot.pushForest [⟨none, (lowerRoot source root).label, []⟩] 0
        (lowerRoot source root).children := by
  rw [writeRoot, writes_statements source root]
  rfl

/-- The writers of the statements leave a tree numbered in preorder. -/
theorem wellFormed_writeRoot (source : String) (root : Concrete) :
    Slot.WellFormed (writeRoot source root) := by
  have hroot : Slot.Rightmost [⟨none, ⟨.sourceFile, root.label.span⟩, []⟩] 0 :=
    ⟨Nat.one_pos, Relation.ReflTransGen.refl⟩
  exact ((writes_statements source root).grown (Slot.wellFormed_singleton rfl) hroot).wellFormed

end Lowering

namespace ParsedModule

/-- The table of a module is written statement by statement, below the row of the source file. -/
theorem slots_eq_writeRoot {path : Path} {source : String} {concrete : Concrete}
    {m : ParsedModule} (h : parse path source concrete = .ok m) :
    m.slots = Lowering.writeRoot source concrete := by
  unfold parse at h
  split_ifs at h
  cases h
  rw [Lowering.writeRoot_eq, slots_eq_pushForest]

/-- Every source with a concrete tree without an error is read.  Its table is what the writers of
the statements leave; it is a tree numbered in preorder, and its links are the moves between the
nodes. -/
theorem exists_parse_wellFormed (path : Path) (source : String) (concrete : Concrete)
    (h : concrete.label.hasError = false) :
    ∃ m, parse path source concrete = .ok m ∧ m.slots = Lowering.writeRoot source concrete ∧
      Slot.WellFormed m.slots ∧
      ∀ i s, m.slots[i]? = some s ↔ ∃ n ∈ m.root.cursors, n.index = i ∧ Slot.ofNode n = s := by
  have hparse : parse path source concrete =
      .ok ⟨path, source, Lowering.lowerRoot source concrete⟩ := by
    rw [parse, h]
    rfl
  have hslots := slots_eq_writeRoot hparse
  refine ⟨_, hparse, hslots, ?_, fun i s => getElem?_slots_eq_some_iff⟩
  rw [hslots]
  exact Lowering.wellFormed_writeRoot source concrete

theorem exists_parse_wellFormed_diamond :
    Diamond.tree.label.hasError = false ∧
      ∃ m, parse ⟨"/m.ts"⟩ Diamond.source Diamond.tree = .ok m ∧
        m.slots.map (·.children) =
          [ [1, 5, 10], [2, 3], [], [4], [], [6, 7], [], [8], [9], [],
            [11, 12, 17], [], [13, 15], [14], [], [16], [], [18], [] ] ∧
        Slot.WellFormed m.slots := by
  obtain ⟨m, hparse, _, hwellFormed, _⟩ :=
    exists_parse_wellFormed ⟨"/m.ts"⟩ Diamond.source Diamond.tree rfl
  cases hparse
  exact ⟨rfl, _, rfl, by decide +kernel, hwellFormed⟩

end ParsedModule

end PropSurface
