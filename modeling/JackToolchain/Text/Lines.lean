/-!
# Lines, words and numbers

A line ends with a line feed, which a carriage return may precede; both belong to the ending and not
to the line.  What follows the last line feed is a line only if it is not empty.

Jack sources and virtual machine programs are laid out with *blanks*: the characters that have the
Unicode property `White_Space`.  A blank separates words and otherwise means nothing.

The three languages of the toolchain write numbers with the ASCII digits in base ten.  Leading zeros
are allowed and mean nothing.
-/

namespace JackToolchain.Text

/-! ### Lines -/

/-- Drops a carriage return from the front of a line that is kept newest character first. -/
def dropReturn : List Char → List Char
  | '\r' :: line => line
  | line => line

/-- The lines of a text, when the characters of `line` have been read of the current line and the
lines of `done` before it.  Both are kept newest first. -/
def linesFrom (line : List Char) (done : List (List Char)) : List Char → List (List Char)
  | [] => (if line.isEmpty then done else line.reverse :: done).reverse
  | c :: cs =>
    if c = '\n' then linesFrom [] ((dropReturn line).reverse :: done) cs
    else linesFrom (c :: line) done cs

/-- The lines of a text, in order and without their endings. -/
def lines (text : List Char) : List (List Char) := linesFrom [] [] text

/-- The part of a line that stands before the first `//`, when the characters of `read` come before
it, newest first. -/
def beforeCommentFrom (read : List Char) : List Char → List Char
  | [] => read.reverse
  | '/' :: '/' :: _ => read.reverse
  | c :: cs => beforeCommentFrom (c :: read) cs

/-- The part of a line that stands before the first `//`. -/
def beforeComment (line : List Char) : List Char := beforeCommentFrom [] line

/-! ### Words -/

/-- The characters with the Unicode property `White_Space`: six controls, the spaces, and the line
and paragraph separators. -/
def isBlank (c : Char) : Bool :=
  let n := c.toNat
  (9 ≤ n && n ≤ 13) || n == 0x20 || n == 0x85 || n == 0xA0 || n == 0x1680 ||
    (0x2000 ≤ n && n ≤ 0x200A)
    || n == 0x2028 || n == 0x2029 || n == 0x202F || n == 0x205F || n == 0x3000

/-- The words of a text, when the characters of `word` have been read of a word that may go on and
the words of `done` before it.  Both are kept newest first. -/
def wordsFrom (word : List Char) (done : List (List Char)) : List Char → List (List Char)
  | [] => (if word.isEmpty then done else word.reverse :: done).reverse
  | c :: cs =>
    if isBlank c then
      wordsFrom [] (if word.isEmpty then done else word.reverse :: done) cs
    else
      wordsFrom (c :: word) done cs

/-- The longest runs of characters that are not blank, in order. -/
def words (text : List Char) : List (List Char) := wordsFrom [] [] text

/-! ### Numbers -/

/-- The number that decimal digits spell. -/
def decimalValue (digits : List Char) : Nat :=
  digits.foldl (fun n c => n * 10 + (c.toNat - '0'.toNat)) 0

end JackToolchain.Text
