import JackToolchain.Jack.Lookahead

/-!
# Token streams

The parser sees a source as a stream of items with one of them in view.  A `TokenStream` takes its
items from a `Lookahead`, so that reading is lazy.  Whoever looks at items puts the peek cursor back
first, and so does not depend on where it has been left: the item in view stays in view, however
often it is looked at.

A stream answers in the monad `Reading`: reading may move the stream, and may fail with a
`SyntaxError`.  The stream is kept when reading fails, so what has been consumed stays consumed.
The view of a stream is the list `TokenStream.items`, of which the stream is a position.
-/

namespace JackToolchain.Jack

/-- What can be wrong with the order of the tokens of a source. -/
inductive SyntaxError where
  /-- Another kind of token was needed. -/
  | mismatch (expected : Kind) (found : Token)
  /-- The token fits none of the alternatives, which are described. -/
  | unexpected (expected : String) (found : Token)
  /-- There is nothing left to read, not even the end of the source. -/
  | endOfSource
  /-- There is a lexical error where a token should be. -/
  | lexical (error : LexError)
deriving Repr, DecidableEq

/-- The wording of a syntax error. -/
def SyntaxError.message : SyntaxError → String
  | .mismatch expected found =>
    found.span.place ++ ": expected " ++ expected.description ++ ", found " ++ found.describe
  | .unexpected expected found =>
    found.span.place ++ ": expected " ++ expected ++ ", found " ++ found.describe
  | .endOfSource => "unexpected end of source code"
  | .lexical error => error.message

/-- A source as seen from one of its items. -/
structure TokenStream where
  /-- The items that are left. -/
  lookahead : Lookahead
  /-- A number of characters that the whole source does not exceed. -/
  size : Nat

namespace TokenStream

/-- The stream of a source, with its first item in view. -/
def ofSource (source : String) : TokenStream := ⟨.ofSource source, source.length⟩

/-- The items that are left. -/
def items (s : TokenStream) : List Item := s.lookahead.items

/-- Puts the peek cursor back to the item in view. -/
def resetPeek (s : TokenStream) : TokenStream := { s with lookahead := s.lookahead.resetPeek }

/-- The item in view, which is consumed. -/
def takeItem (s : TokenStream) : Option Item × TokenStream :=
  let (item, lookahead) := s.lookahead.next
  (item, { s with lookahead })

/-- The item under the peek cursor, which moves on. -/
def peekItem (s : TokenStream) : Option Item × TokenStream :=
  let (item, lookahead) := s.lookahead.peek
  (item, { s with lookahead })

/-- Enough steps to read all items that are left, whatever is read in a step, and two more. -/
def fuel (s : TokenStream) : Nat := s.size + 3

end TokenStream

/-- Computations that read a token stream. -/
abbrev Reading : Type → Type := EStateM SyntaxError TokenStream

namespace Reading

/-- The token that an item holds. -/
def ofItem : Option Item → Reading Token
  | some (.ok t) => pure t
  | some (.error e) => throw (.lexical e)
  | none => throw .endOfSource

/-- The token in view. -/
def peek : Reading Token := do
  modify TokenStream.resetPeek
  ofItem (← modifyGet TokenStream.peekItem)

/-- The kind of the token in view. -/
def peekKind : Reading Kind := return (← peek).kind

/-- The kind of the token behind the one in view.  The token in view has to be one, too. -/
def peekSecond : Reading Kind := do
  discard peek
  let item ← modifyGet TokenStream.peekItem
  modify TokenStream.resetPeek
  return (← ofItem item).kind

/-- The token in view, which is consumed.  A lexical error is consumed as well. -/
def next : Reading Token := do ofItem (← modifyGet TokenStream.takeItem)

/-- The token in view, consumed, if it is of the given kind. -/
def accept (kind : Kind) : Reading (Option Token) := do
  if (← peekKind) = kind then some <$> next else return none

/-- The token in view, consumed, which has to be of the given kind. -/
def expect (kind : Kind) : Reading Token := do
  let t ← peek
  if t.kind = kind then next else throw (.mismatch kind t)

/-- Fails, since the token in view is none of those described. -/
def unexpected {α : Type} (expected : String) : Reading α := do
  throw (.unexpected expected (← peek))

/-- The end of a computation that has used up its fuel. -/
def exhausted {α : Type} : Reading α := throw .endOfSource

/-- Runs a computation with enough fuel for all items that are left. -/
def withFuel {α : Type} (p : Nat → Reading α) : Reading α := do p (← get).fuel

end Reading

end JackToolchain.Jack
