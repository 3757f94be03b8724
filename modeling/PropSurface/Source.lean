/-!
# Source text

Places in a source are byte offsets into its UTF-8 form.

**Contents.**
* `Span`: a range of bytes, end exclusive.
* `Source.slice`: the text in a span, empty when the span is no range of whole
  characters of the source.
* `Source.position`: row and byte column of an offset.
-/

namespace PropSurface

/-- A range of bytes, end exclusive. -/
structure Span where
  start : Nat
  stop : Nat
deriving DecidableEq, Repr

namespace Span

def length (s : Span) : Nat := s.stop - s.start

/-- Whether the span holds no byte. -/
def isEmpty (s : Span) : Bool := s.length == 0

end Span

namespace Source

/-- Text in a span; empty when the span leaves the source or cuts a character. -/
def slice (source : String) (span : Span) : String :=
  if span.start ≤ span.stop ∧ span.stop ≤ source.utf8ByteSize then
    (String.fromUTF8? (source.toUTF8.extract span.start span.stop)).getD ""
  else ""

/-- The byte that ends a row. -/
def newline : UInt8 := 10

/-- Row and byte column of an offset, both counted from 0: the number of line ends
before it, and the number of bytes since the last of them. -/
def position (source : String) (offset : Nat) : Nat × Nat :=
  let before := (source.toUTF8.extract 0 offset).data.toList
  (before.count newline, (before.reverse.takeWhile (· != newline)).length)

/-- Whether a character can delimit a string: a double quote, a single quote or a
backtick. -/
def isQuote (c : Char) : Bool := c == '\x22' || c == '\x27' || c == '\x60'

/-- Drop all quote characters from both ends. -/
def unquote (text : String) : String :=
  String.ofList ((text.toList.dropWhile isQuote).reverse.dropWhile isQuote).reverse

end Source

end PropSurface
