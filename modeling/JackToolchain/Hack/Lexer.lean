/-!
# Reading the tokens of an assembly source

An assembly source is a sequence of tokens with *gaps* between them: blanks, and comments from `//`
up to the end of the line.  Ends of lines are tokens.  Symbols and numbers are the longest runs of
their characters, and any other character is a token of its own, be it known or not.

The end of the source is a token without characters.  A NUL character is read as the same kind of
token; only its place tells the two apart.

Bytes are counted without a limit here.  A `Scanner` reads the same tokens with offsets of 32 bits.
-/

namespace JackToolchain.Hack

/-- What a token is. -/
inductive TokenKind where
  | at | leftParen | rightParen | equals | semicolon | plus | minus | bang | amp | pipe
  /-- The end of a line: a line feed, a carriage return, or the latter before the former. -/
  | newline
  /-- Letters, digits and `_ . $ :`, of which a digit is not the first. -/
  | symbol
  | number
  /-- A character that begins no other token. -/
  | unknown
  /-- The end of the source, or a NUL character. -/
  | endOfFile
deriving Repr, DecidableEq, Inhabited

namespace TokenKind

/-- How a message names a kind. -/
def description : TokenKind → String
  | .at => "'@'"
  | leftParen => "'('"
  | rightParen => "')'"
  | equals => "'='"
  | semicolon => "';'"
  | plus => "'+'"
  | minus => "'-'"
  | bang => "'!'"
  | amp => "'&'"
  | pipe => "'|'"
  | newline => "newline"
  | symbol => "symbol"
  | number => "number"
  | unknown => "unknown token"
  | endOfFile => "end-of-file"

/-- Whether a compute instruction can have a token of this kind. -/
def isInstructionPart : TokenKind → Bool
  | equals | semicolon | plus | minus | bang | amp | pipe | symbol | number => true
  | _ => false

/-- Whether a token of this kind ends a line. -/
def endsLine : TokenKind → Bool
  | newline | endOfFile => true
  | _ => false

/-- The kind of a character that is a token by itself. -/
def ofChar? (c : Char) : Option TokenKind :=
  match c with
  | '@' => some .at
  | '(' => some leftParen
  | ')' => some rightParen
  | '=' => some equals
  | ';' => some semicolon
  | '+' => some plus
  | '-' => some minus
  | '!' => some bang
  | '&' => some amp
  | '|' => some pipe
  | '\n' => some newline
  | '\r' => some newline
  | '\x00' => some endOfFile
  | _ => none

end TokenKind

/-- A stretch of a source, in bytes. -/
structure Span where
  index : Nat
  size : Nat
deriving Repr, DecidableEq, Inhabited

namespace Span

/-- The offset behind a stretch. -/
def stop (s : Span) : Nat := s.index + s.size

/-- The shortest stretch that covers two. -/
def merge (s t : Span) : Span :=
  let index := min s.index t.index
  ⟨index, max s.stop t.stop - index⟩

end Span

/-- A token at its place in the source. -/
structure Token where
  kind : TokenKind
  text : String
  span : Span
deriving Repr, DecidableEq, Inhabited

/-! ### Characters -/

/-- Characters that mean nothing between tokens. -/
def isBlank (c : Char) : Bool := c == ' ' || c == '\t' || c == '\u00A0' || c == '\uFEFF'

/-- Characters that end a line. -/
def isNewline (c : Char) : Bool := c == '\r' || c == '\n'

/-- Characters that a symbol can begin with. -/
def isSymbolStart (c : Char) : Bool := c.isAlpha || c == '_' || c == '.' || c == '$' || c == ':'

/-- Characters that a symbol can go on with. -/
def isSymbolPart (c : Char) : Bool := isSymbolStart c || c.isDigit

/-- The number of bytes of a text. -/
def byteLength (text : List Char) : Nat := text.foldl (fun n c => n + c.utf8Size) 0

/-! ### Cursors -/

/-- A place in a source: the characters still to read, and the bytes before them. -/
structure Cursor where
  rest : List Char
  offset : Nat
deriving Repr, DecidableEq, Inhabited

namespace Cursor

/-- The beginning of a source. -/
def ofSource (source : String) : Cursor := ⟨source.toList, 0⟩

/-- Whether nothing is left to read. -/
def atEnd (c : Cursor) : Bool := c.rest.isEmpty

/-- Skips the longest run of characters with a property. -/
def skipWhile (c : Cursor) (p : Char → Bool) : Cursor :=
  ⟨c.rest.dropWhile p, c.offset + byteLength (c.rest.takeWhile p)⟩

/-- Skips blanks, and a comment behind them. -/
def skipGap (c : Cursor) : Cursor :=
  let c := c.skipWhile isBlank
  match c.rest with
  | '/' :: '/' :: _ => c.skipWhile fun x => !isNewline x
  | _ => c

/-- The token of the given kind and text, and the cursor behind it. -/
def token (c : Cursor) (kind : TokenKind) (text rest : List Char) : Token × Cursor :=
  let size := byteLength text
  (⟨kind, String.ofList text, ⟨c.offset, size⟩⟩, ⟨rest, c.offset + size⟩)

/-- Reads the token that begins right here. -/
def tokenHere (c : Cursor) : Token × Cursor :=
  match c.rest with
  | [] => c.token .endOfFile [] []
  | '\r' :: '\n' :: rest => c.token .newline ['\r', '\n'] rest
  | x :: rest =>
    match TokenKind.ofChar? x with
    | some kind => c.token kind [x] rest
    | none =>
      if isSymbolStart x
        then c.token .symbol (x :: rest.takeWhile isSymbolPart) (rest.dropWhile isSymbolPart)
      else if x.isDigit
        then c.token .number (x :: rest.takeWhile Char.isDigit) (rest.dropWhile Char.isDigit)
      else c.token .unknown [x] rest

/-- The next token, and the cursor behind it. -/
def next (c : Cursor) : Token × Cursor := c.skipGap.tokenHere

theorem length_skipWhile (c : Cursor) (p : Char → Bool) :
    (c.skipWhile p).rest.length ≤ c.rest.length :=
  (List.dropWhile_suffix p).length_le

theorem length_skipGap (c : Cursor) : c.skipGap.rest.length ≤ c.rest.length := by
  unfold skipGap
  dsimp only
  split
  · exact Nat.le_trans (length_skipWhile _ _) (length_skipWhile _ _)
  · exact length_skipWhile _ _

/-- **Reading makes progress.**  Behind a token there are fewer characters to read, unless the token
is at the end of the source. -/
theorem length_tokenHere (c : Cursor) (h : c.rest ≠ []) :
    c.tokenHere.2.rest.length < c.rest.length := by
  unfold tokenHere
  split
  · next hr => exact absurd hr h
  · next rest hr =>
    rw [hr]
    exact Nat.lt_succ_of_lt (Nat.lt_succ_self _)
  · next x rest _ hr =>
    rw [hr]
    have hd (p : Char → Bool) : (rest.dropWhile p).length ≤ rest.length :=
      (List.dropWhile_suffix p).length_le
    split
    · exact Nat.lt_succ_self _
    · split
      · exact Nat.lt_succ_of_le (hd _)
      · split
        · exact Nat.lt_succ_of_le (hd _)
        · exact Nat.lt_succ_self _

theorem length_next (c : Cursor) (h : c.next.1.kind ≠ .endOfFile) :
    c.next.2.rest.length < c.rest.length := by
  by_cases hr : c.skipGap.rest = []
  · exfalso
    apply h
    unfold next tokenHere
    rw [hr]
    rfl
  · exact Nat.lt_of_lt_of_le (length_tokenHere _ hr) (length_skipGap c)

theorem length_next_of_not_atEnd (c : Cursor) (h : c.next.2.atEnd = false) :
    c.next.2.rest.length < c.rest.length := by
  by_cases hr : c.skipGap.rest = []
  · exfalso
    unfold next tokenHere at h
    rw [hr] at h
    simp [token, atEnd] at h
  · exact Nat.lt_of_lt_of_le (length_tokenHere _ hr) (length_skipGap c)

/-- The tokens that are left, after those of `done`, newest first.  The last one is an end of file
with nothing behind it. -/
def tokensFrom (done : List Token) (c : Cursor) : List Token :=
  let read := c.next
  if _last : read.1.kind = .endOfFile ∧ read.2.atEnd = true then (read.1 :: done).reverse
  else tokensFrom (read.1 :: done) read.2
termination_by c.rest.length
decreasing_by
  have hlast : ¬ (c.next.1.kind = .endOfFile ∧ c.next.2.atEnd = true) := ‹_›
  by_cases hk : c.next.1.kind = .endOfFile
  · exact length_next_of_not_atEnd c (Bool.eq_false_iff.2 fun ha => hlast ⟨hk, ha⟩)
  · exact length_next c hk

end Cursor

/-- The tokens of a source. -/
def tokens (source : String) : List Token := (Cursor.ofSource source).tokensFrom []

end JackToolchain.Hack
