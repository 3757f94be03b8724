import PropSurface.Json.Value

/-!
# Reading JSON

A strict reader: blanks are the four of the format, numbers have no leading zeros, strings
hold no control characters, nothing may follow the value.

Each function takes the characters in front of it and gives back what it read together
with the characters left.  Nesting is bounded by the length of the text.
-/

namespace PropSurface
namespace JsonValue

/-- Whether a character may stand between the parts of a value. -/
def isBlank (c : Char) : Bool := c == ' ' || c == '\n' || c == '\t' || c == '\r'

def skipBlanks (cs : List Char) : List Char := cs.dropWhile isBlank

/-- Value of a digit of base 16. -/
def hexValue? (c : Char) : Option Nat :=
  if '0' ≤ c ∧ c ≤ '9' then some (c.toNat - '0'.toNat)
  else if 'a' ≤ c ∧ c ≤ 'f' then some (c.toNat - 'a'.toNat + 10)
  else if 'A' ≤ c ∧ c ≤ 'F' then some (c.toNat - 'A'.toNat + 10)
  else none

/-- One part of a string: a character, or a unit written by its number. -/
inductive StringPart where
  | char (c : Char)
  | unit (n : Nat)

/-- The character that a simple escape stands for. -/
def simpleEscape? (c : Char) : Option Char :=
  if c = '\x22' then some '\x22'
  else if c = '\\' then some '\\'
  else if c = '/' then some '/'
  else if c = 'b' then some '\x08'
  else if c = 'f' then some '\x0c'
  else if c = 'n' then some '\n'
  else if c = 'r' then some '\r'
  else if c = 't' then some '\t'
  else none

/-- Read the parts of a string up to its closing quote. -/
def readParts : List Char → Option (List StringPart × List Char)
  | [] => none
  | '\\' :: 'u' :: a :: b :: c :: d :: rest =>
      match hexValue? a, hexValue? b, hexValue? c, hexValue? d with
      | some a, some b, some c, some d =>
          (readParts rest).map fun (parts, left) =>
            (.unit (((a * 16 + b) * 16 + c) * 16 + d) :: parts, left)
      | _, _, _, _ => none
  | '\\' :: c :: rest =>
      match simpleEscape? c with
      | some e => (readParts rest).map fun (parts, left) => (.char e :: parts, left)
      | none => none
  | c :: rest =>
      if c = '\x22' then some ([], rest)
      else if c = '\\' ∨ c.toNat < 32 then none
      else (readParts rest).map fun (parts, left) => (.char c :: parts, left)

/-- Whether a unit is the first half of a pair. -/
def isHigh (n : Nat) : Bool := 0xD800 ≤ n && n ≤ 0xDBFF

/-- Whether a unit is the second half of a pair. -/
def isLow (n : Nat) : Bool := 0xDC00 ≤ n && n ≤ 0xDFFF

/-- The text of a string; `none` when half of a pair stands alone. -/
def decodeParts : List StringPart → Option (List Char)
  | [] => some []
  | .char c :: rest => (decodeParts rest).map (c :: ·)
  | .unit high :: .unit low :: rest =>
      if isHigh high then
        if isLow low then
          (decodeParts rest).map
            (Char.ofNat ((high - 0xD800) * 0x400 + (low - 0xDC00) + 0x10000) :: ·)
        else none
      else if isLow high then none
      else (decodeParts (.unit low :: rest)).map (Char.ofNat high :: ·)
  | .unit n :: rest =>
      if isHigh n || isLow n then none else (decodeParts rest).map (Char.ofNat n :: ·)

/-- Read a string whose opening quote has been read. -/
def readString (cs : List Char) : Option (Option String × List Char) :=
  (readParts cs).map fun (parts, left) => ((decodeParts parts).map String.ofList, left)

/-- Digits in front. -/
def readDigits (cs : List Char) : List Char × List Char :=
  (cs.takeWhile Char.isDigit, cs.dropWhile Char.isDigit)

/-- Read the integer part of a number. -/
def readInteger (cs : List Char) : Option (List Char × List Char) :=
  match readDigits cs with
  | ([], _) => none
  | ('0' :: _ :: _, _) => none
  | (digits, rest) => some (digits, rest)

/-- Read the fraction of a number, if there is one. -/
def readFraction (cs : List Char) : Option (List Char × List Char) :=
  match cs with
  | '.' :: rest =>
      match readDigits rest with
      | ([], _) => none
      | (digits, rest) => some ('.' :: digits, rest)
  | _ => some ([], cs)

/-- Read the sign of an exponent, if there is one. -/
def readSign (cs : List Char) : List Char × List Char :=
  match cs with
  | '+' :: rest => (['+'], rest)
  | '-' :: rest => (['-'], rest)
  | _ => ([], cs)

/-- Read the exponent of a number, if there is one. -/
def readExponent (cs : List Char) : Option (List Char × List Char) :=
  match cs with
  | c :: rest =>
      if c = 'e' ∨ c = 'E' then
        let (sign, rest) := readSign rest
        match readDigits rest with
        | ([], _) => none
        | (digits, rest) => some (c :: sign ++ digits, rest)
      else some ([], cs)
  | [] => some ([], cs)

def readNumber (cs : List Char) : Option (JsonValue × List Char) := do
  let (sign, cs) := match cs with
    | '-' :: rest => (['-'], rest)
    | _ => ([], cs)
  let (integer, cs) ← readInteger cs
  let (fraction, cs) ← readFraction cs
  let (exponent, cs) ← readExponent cs
  pure (.number (String.ofList (sign ++ integer ++ fraction ++ exponent)), cs)

def readWord (word : String) (value : JsonValue) (cs : List Char) :
    Option (JsonValue × List Char) :=
  if word.toList.isPrefixOf cs then some (value, cs.drop word.length) else none

mutual

/-- Read a value nested at most `n` deep. -/
def readValue : Nat → List Char → Option (JsonValue × List Char)
  | 0, _ => none
  | n + 1, cs =>
      match skipBlanks cs with
      | [] => none
      | c :: rest =>
          if c = '\x22' then (readString rest).map fun (s, left) => (.text s, left)
          else if c = '[' then
            match skipBlanks rest with
            | ']' :: left => some (.array [], left)
            | _ => (readItems n rest).map fun (items, left) => (.array items, left)
          else if c = '\x7b' then
            match skipBlanks rest with
            | '\x7d' :: left => some (.object [], left)
            | _ => (readMembers n rest).map fun (members, left) => (.object members, left)
          else if c = 'n' then readWord "null" .null (c :: rest)
          else if c = 't' then readWord "true" (.bool true) (c :: rest)
          else if c = 'f' then readWord "false" (.bool false) (c :: rest)
          else readNumber (c :: rest)

/-- Read the items of an array up to its closing bracket. -/
def readItems : Nat → List Char → Option (List JsonValue × List Char)
  | 0, _ => none
  | n + 1, cs => do
      let (item, rest) ← readValue n cs
      match skipBlanks rest with
      | ',' :: rest =>
          let (items, left) ← readItems n rest
          pure (item :: items, left)
      | ']' :: left => pure ([item], left)
      | _ => none

/-- Read the members of an object up to its closing brace. -/
def readMembers : Nat → List Char → Option (List (Option String × JsonValue) × List Char)
  | 0, _ => none
  | n + 1, cs =>
      match skipBlanks cs with
      | '\x22' :: rest => do
          let (key, rest) ← readString rest
          match skipBlanks rest with
          | ':' :: rest =>
              let (value, rest) ← readValue n rest
              match skipBlanks rest with
              | ',' :: rest =>
                  let (members, left) ← readMembers n rest
                  pure ((key, value) :: members, left)
              | '\x7d' :: left => pure ([(key, value)], left)
              | _ => none
          | _ => none
      | _ => none

end

/-- Read a whole text as one value. -/
def read? (s : String) : Option JsonValue :=
  let cs := s.toList
  match readValue (cs.length + 1) cs with
  | some (value, left) => if (skipBlanks left).isEmpty then some value else none
  | none => none

end JsonValue
end PropSurface
