/-!
# YAML characters

Settings are written in YAML.  A document is read character by character, and the place of each
character counts: the column tells to which collection something belongs, the line and the number of
bytes on it tell how far a key may be from its colon.

A carriage return, alone or before a line feed, and a next line character mean the same as a line
feed, and `unifyBreaks` writes them so.  The line separator and the paragraph separator break lines
as well, but where text is folded they are kept.
-/

namespace JackToolchain.Yaml

/-! ### Characters -/

/-- The characters that separate words on a line. -/
def isBlank (c : Char) : Bool := c == ' ' || c == '\t'

/-- The characters that end a line. -/
def isBreak (c : Char) : Bool := c == '\n' || c == '\u2028' || c == '\u2029'

/-- The characters that delimit collections in flow style. -/
def isFlowMark (c : Char) : Bool := c == ',' || c == '[' || c == ']' || c == '{' || c == '}'

/-- The characters that a document may hold. -/
def isAllowed (c : Char) : Bool :=
  let n := c.toNat
  n == 0x09 || n == 0x0A || n == 0x0D || (0x20 ≤ n && n ≤ 0x7E) || n == 0x85
    || (0xA0 ≤ n && n ≤ 0xFFFD) || 0x10000 ≤ n

/-- Whether a blank, a line break or the end comes next. -/
def atBlank : List Char → Bool
  | [] => true
  | c :: _ => isBlank c || isBreak c

/-- Whether the three characters that begin a document, or those that end one, come next. -/
def isMarker (cs : List Char) : Bool :=
  (cs.take 3 == ['-', '-', '-'] || cs.take 3 == ['.', '.', '.']) && atBlank (cs.drop 3)

/-- Writes line breaks as line feeds, behind the characters of `read`, newest first. -/
def unifyBreaksFrom (read : List Char) : List Char → List Char
  | [] => read.reverse
  | '\r' :: '\n' :: cs => unifyBreaksFrom ('\n' :: read) cs
  | '\r' :: cs => unifyBreaksFrom ('\n' :: read) cs
  | '\u0085' :: cs => unifyBreaksFrom ('\n' :: read) cs
  | c :: cs => unifyBreaksFrom (c :: read) cs

/-- Writes line breaks as line feeds, the separators of lines and paragraphs excepted. -/
def unifyBreaks (cs : List Char) : List Char := unifyBreaksFrom [] cs

/-! ### Places -/

/-- How far a document has been read. -/
structure Place where
  /-- The lines before this one. -/
  line : Nat := 0
  /-- The characters before this one on its line. -/
  column : Nat := 0
  /-- The bytes of these characters. -/
  bytes : Nat := 0
deriving Repr, DecidableEq

/-- The place behind a character. -/
def Place.after (p : Place) (c : Char) : Place :=
  if isBreak c then ⟨p.line + 1, 0, 0⟩ else ⟨p.line, p.column + 1, p.bytes + c.utf8Size⟩

/-- What is left of a document from some place on. -/
structure Cursor where
  place : Place
  rest : List Char

/-- The cursor behind the next character. -/
def Cursor.next (c : Cursor) : Cursor :=
  match c.rest with
  | [] => c
  | x :: rest => ⟨c.place.after x, rest⟩

end JackToolchain.Yaml
