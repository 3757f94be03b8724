/-!
# Glob patterns

The pattern of one path component: characters that stand for themselves, a question mark
for any one character, a star for any number of them, and bracketed sets.  Two stars are
a component of their own and stand for directories at any depth.

**Contents.**
* `compile?`: reads a pattern text; `none` if it is not well formed.
* `fits`: whether a name fits a pattern.
* `escape`: the pattern text that only a given text fits.
-/

namespace PropSurface
namespace Glob

/-- A part of a bracketed set. -/
inductive CharSet where
  | single (c : Char)
  | range (low high : Char)
deriving DecidableEq, Repr

/-- Whether a character belongs to a part of a set. -/
def CharSet.has (c : Char) : CharSet → Bool
  | single d => c == d
  | range low high => low ≤ c && c ≤ high

inductive Atom where
  | char (c : Char)
  | any
  | sequence
  | oneOf (sets : List CharSet)
  | noneOf (sets : List CharSet)
  /-- Two stars. -/
  | recursive
deriving DecidableEq, Repr

/-- The parts of a bracketed set: a character, a dash and a character are a range. -/
def charSets : List Char → List CharSet
  | low :: '-' :: high :: rest => .range low high :: charSets rest
  | c :: rest => .single c :: charSets rest
  | [] => []

/-- What the reader of a pattern has in front of it. -/
inductive ReadState where
  /-- Plain text; `fresh` at the start and after a slash. -/
  | text (fresh : Bool)
  /-- The second of two stars. -/
  | secondStar
  /-- The place right after two stars. -/
  | afterStars
  /-- The place right after an opening bracket. -/
  | opened
  /-- A set, with the characters read so far, latest first; the first of them may be
  anything. -/
  | inside (negated : Bool) (chars : List Char)

/-- Read a pattern from a state on. -/
def compileFrom : ReadState → List Char → Option (List Atom)
  | .text _, [] => some []
  | .secondStar, [] => none
  | .afterStars, [] => some [.recursive]
  | .opened, [] => none
  | .inside _ _, [] => none
  | .text fresh, c :: cs =>
      if c = '?' then (compileFrom (.text false) cs).map (.any :: ·)
      else if c = '[' then compileFrom .opened cs
      else if c = '*' then
        if cs.head? = some '*' then (if fresh then compileFrom .secondStar cs else none)
        else (compileFrom (.text false) cs).map (.sequence :: ·)
      else (compileFrom (.text (c == '/')) cs).map (.char c :: ·)
  | .secondStar, _ :: cs => compileFrom .afterStars cs
  | .afterStars, c :: cs =>
      if c = '/' then (compileFrom (.text true) cs).map (.recursive :: ·) else none
  | .opened, c :: cs =>
      if c = '!' then compileFrom (.inside true []) cs
      else compileFrom (.inside false [c]) cs
  | .inside negated chars, c :: cs =>
      if c = ']' ∧ chars ≠ [] then
        let sets := charSets chars.reverse
        let atom := if negated then Atom.noneOf sets else Atom.oneOf sets
        (compileFrom (.text false) cs).map (atom :: ·)
      else compileFrom (.inside negated (c :: chars)) cs

def compile? (pattern : String) : Option (List Atom) :=
  compileFrom (.text true) pattern.toList

/-- Whether a character fits a part that stands for one character. -/
def Atom.admits (c : Char) : Atom → Bool
  | char d => c == d
  | any => true
  | oneOf sets => sets.any (CharSet.has c)
  | noneOf sets => !sets.any (CharSet.has c)
  | sequence => false
  | recursive => false

/-- Whether a part stands for any number of characters. -/
def Atom.isLong : Atom → Bool
  | sequence => true
  | recursive => true
  | _ => false

/-- All ends of a text, the longest first. -/
def ends : List Char → List (List Char)
  | [] => [[]]
  | c :: cs => (c :: cs) :: ends cs

/-- What a part leaves of a text that starts with something it stands for.  The texts are
ends of one name, the longest first; a part for any number of characters leaves every end
of the longest, and those of the others are among them. -/
def Atom.leave (rests : List (List Char)) (a : Atom) : List (List Char) :=
  if a.isLong then
    match rests with
    | [] => []
    | longest :: _ => ends longest
  else
    rests.filterMap fun
      | [] => none
      | c :: cs => if a.admits c then some cs else none

/-- Whether a name fits a pattern: its parts, one after the other, can leave nothing.  All
ways to begin are followed at once, so the time is bounded by the product of the lengths. -/
def fits (pattern : List Atom) (name : String) : Bool :=
  (pattern.foldl Atom.leave [name.toList]).any List.isEmpty

/-- The text of a pattern without any special part. -/
def plainText? : List Atom → Option (List Char)
  | [] => some []
  | .char c :: rest => (plainText? rest).map (c :: ·)
  | _ :: _ => none

/-- Whether a character is special outside of brackets. -/
def isSpecial (c : Char) : Bool := c == '?' || c == '*' || c == '[' || c == ']'

/-- The pattern text that only the given text fits: special characters become sets. -/
def escape (text : String) : String :=
  String.ofList (text.toList.flatMap fun c => if isSpecial c then ['[', c, ']'] else [c])

end Glob
end PropSurface
