import JackToolchain.Hack.Lexer

/-!
# Places in an assembly source

A message about an assembly source cites the place of a token: its line and column, and the whole
line, with a mark under the column.

For this purpose a line ends with a line feed.  A carriage return *behind* a line feed belongs to
the line before it as well, and a line feed at the very end of the source begins no line of its own.
-/

namespace JackToolchain.Hack

/-- Drops characters until they take a number of bytes. -/
def dropBytes : Nat → List Char → List Char
  | _, [] => []
  | n, c :: cs => if n = 0 then c :: cs else dropBytes (n - c.utf8Size) cs

/-- The first characters that take a number of bytes, behind those of `done`, newest first. -/
def takeBytesFrom (done : List Char) : Nat → List Char → List Char
  | _, [] => done.reverse
  | n, c :: cs => if n = 0 then done.reverse else takeBytesFrom (c :: done) (n - c.utf8Size) cs

/-- The first characters that take a number of bytes. -/
def takeBytes (n : Nat) (text : List Char) : List Char := takeBytesFrom [] n text

/-- The characters of a stretch. -/
def Span.fragment (s : Span) (text : List Char) : List Char :=
  takeBytes s.size (dropBytes s.index text)

/-- The stretch of the line around the byte at `index`, when `start` is the beginning of the current
line and `offset` bytes have been read. -/
def lineFrom (index start offset : Nat) : List Char → Span
  | [] => ⟨start, offset - start⟩
  | '\n' :: '\r' :: cs =>
    if offset < index then lineFrom index (if cs.isEmpty then start else offset + 2) (offset + 2) cs
    else ⟨start, offset + 2 - start⟩
  | '\n' :: cs =>
    if offset < index then lineFrom index (if cs.isEmpty then start else offset + 1) (offset + 1) cs
    else ⟨start, offset + 1 - start⟩
  | c :: cs => lineFrom index start (offset + c.utf8Size) cs

/-- The stretch of the line that a stretch begins in, with what ends the line. -/
def Span.surroundingLine (s : Span) (text : List Char) : Span := lineFrom s.index 0 0 text

/-- Drops line feeds and carriage returns from the end of a line. -/
def withoutEnding (line : List Char) : List Char := (line.reverse.dropWhile isNewline).reverse

/-- A place in a source, and the line it is in. -/
structure Place where
  line : Nat
  column : Nat
  lineText : String
deriving Repr, DecidableEq, Inhabited

namespace Place

/-- The place where a stretch of a source begins. -/
def ofSpan (text : List Char) (s : Span) : Place :=
  let around := s.surroundingLine text
  let before := takeBytes around.index text
  let inLine := takeBytes (s.index - around.index) (dropBytes around.index text)
  { line := before.count '\n' + 1
    column := inLine.length + 1
    lineText := String.ofList (withoutEnding (around.fragment text)) }

/-- A message about a place: the position and the message, then the line, then a mark under the
column. -/
def report (p : Place) (message : String) : String :=
  toString p.line ++ ":" ++ toString p.column ++ ": " ++ message ++ "\n"
    ++ "    " ++ p.lineText ++ "\n"
    ++ "    " ++ String.ofList (List.replicate (p.column - 1) ' ') ++ "^"

end Place

end JackToolchain.Hack
