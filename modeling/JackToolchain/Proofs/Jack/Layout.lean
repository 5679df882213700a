import JackToolchain.Jack.Lexer

/-!
# How a source is laid out

A source is a sequence of lexemes with *gaps* between them, before the first and behind the last.  A
gap is made of blanks and complete comments; a lexeme is a symbol, a string constant or a longest
run of other characters.  `Layout` states this as a relation between a source and its items, without
saying how the items are found.  Whether a piece of text is a comment or a lexeme can depend on what
follows it: a line comment ends where the line does, a run of characters where no more of them
follow, and a slash is a symbol only if no comment begins there.  So each relation below has the
characters that follow as its first argument.
-/

namespace JackToolchain.Jack

/-! ### Gaps -/

/-- What ends a block comment. -/
def commentEnd : List Char := ['*', '/']

/-- One piece of a gap. -/
inductive Trivium (rest : List Char) : List Char → Prop where
  | blank {c : Char} : Text.isBlank c = true → Trivium rest [c]
  /-- Everything up to the line feed, or up to the end of the source. -/
  | lineComment {body : List Char} : '\n' ∉ body → (∀ c ∈ rest.head?, c = '\n') →
      Trivium rest ('/' :: '/' :: body)
  /-- Everything up to the first end of a comment.  The star of the beginning does not count for the
  end. -/
  | blockComment {body : List Char} : ¬commentEnd <:+: body ++ ['*'] →
      Trivium rest ('/' :: '*' :: (body ++ commentEnd))

/-- Pieces of a gap, one behind the other. -/
inductive Gap (rest : List Char) : List Char → Prop where
  | nil : Gap rest []
  | cons {piece gap : List Char} : Trivium (gap ++ rest) piece → Gap rest gap →
    Gap rest (piece ++ gap)

/-! ### Lexemes -/

/-- The characters that are neither blank nor quote nor symbol. -/
structure IsWordlike (c : Char) : Prop where
  not_blank : Text.isBlank c = false
  not_quote : c ≠ '"'
  not_symbol : ∀ s : Symbol, c ≠ s.char

/-- A longest run of such characters. -/
structure Run (rest word : List Char) : Prop where
  ne_nil : word ≠ []
  wordlike : ∀ c ∈ word, IsWordlike c
  longest : ∀ c ∈ rest.head?, ¬IsWordlike c

/-- Nothing but ASCII digits. -/
def AllDigits (word : List Char) : Prop := ∀ c ∈ word, c.isDigit = true

/-- A letter or underscore, and then letters, digits and underscores; all of them ASCII. -/
def IsIdentifier : List Char → Prop
  | [] => False
  | c :: cs => (c.isAlpha = true ∨ c = '_') ∧ ∀ d ∈ cs, d.isAlphanum = true ∨ d = '_'

instance (word : List Char) : Decidable (AllDigits word) :=
  inferInstanceAs (Decidable (∀ c ∈ word, c.isDigit = true))

instance : DecidablePred IsIdentifier
  | [] => isFalse id
  | _ :: _ => inferInstanceAs (Decidable (_ ∧ _))

/-- One of the twenty-one reserved words. -/
def IsReserved (word : List Char) : Prop := ∃ k : Keyword, k.text.toList = word

/-- What a text spells, if it is a lexeme. -/
inductive Spells (rest : List Char) : List Char → Kind → Prop where
  /-- A slash is not the beginning of a comment. -/
  | symbol (s : Symbol) : (s = .slash → ∀ c ∈ rest.head?, c ≠ '/' ∧ c ≠ '*') →
    Spells rest [s.char] (.symbol s)
  | string {body : List Char} : '"' ∉ body → '\n' ∉ body →
    Spells rest ('"' :: (body ++ ['"'])) .string
  | keyword (k : Keyword) : Run rest k.text.toList → Spells rest k.text.toList (.keyword k)
  | int {word : List Char} : Run rest word → AllDigits word → Nat.ofDigitChars 10 word 0 ≤ maxInt →
      Spells rest word (.int (Nat.ofDigitChars 10 word 0))
  | ident {word : List Char} : Run rest word → IsIdentifier word → ¬IsReserved word →
    Spells rest word .ident

/-- What is wrong with a text that begins like a lexeme or a comment and is none. -/
inductive Misspelled (rest : List Char) : List Char → LexFault → Prop where
  | unterminatedString {body : List Char} : '"' ∉ body → '\n' ∉ body →
      (∀ c ∈ rest.head?, c = '\n') → Misspelled rest ('"' :: body) .unterminatedString
  | unterminatedComment {body : List Char} : rest = [] → ¬commentEnd <:+: body →
      Misspelled rest ('/' :: '*' :: body) .unterminatedComment
  | integerOutOfRange {word : List Char} : Run rest word → AllDigits word →
      maxInt < Nat.ofDigitChars 10 word 0 →
      Misspelled rest word (.integerOutOfRange (String.ofList word))
  | malformedInteger {c : Char} {cs : List Char} : Run rest (c :: cs) → c.isDigit = true →
      ¬AllDigits cs → Misspelled rest (c :: cs) (.malformedInteger (String.ofList (c :: cs)))
  | invalidIdentifier {c : Char} {cs : List Char} : Run rest (c :: cs) → c.isDigit = false →
      ¬IsIdentifier (c :: cs) →
      Misspelled rest (c :: cs) (.invalidIdentifier (String.ofList (c :: cs)))

/-! ### Sources -/

/-- The token at the end of a source. -/
def endToken (p : Position) : Token := ⟨⟨.eos, ""⟩, p.spanTo p.offset⟩

/-- The items of a source that begins at a place: lexemes with gaps between them, up to the end of
the source or the first thing that is misspelled. -/
inductive Layout : Position → List Char → List Item → Prop where
  | eos {p : Position} {gap : List Char} : Gap [] gap → Layout p gap [.ok (endToken (p.after gap))]
  | token {p : Position} {gap text rest : List Char} {kind : Kind} {items : List Item} :
      Gap (text ++ rest) gap → Spells rest text kind →
      Layout ((p.after gap).after text) rest items →
      Layout p (gap ++ (text ++ rest)) (.ok (tokenAt (p.after gap) kind text) :: items)
  | error {p : Position} {gap text rest : List Char} {fault : LexFault} : Gap (text ++ rest) gap →
      Misspelled rest text fault →
      Layout p (gap ++ (text ++ rest)) [.error (errorAt (p.after gap) fault)]

/-! ### Tokens of a source -/

/-- The tokens among items. -/
def tokensOf (items : List Item) : List Token := items.filterMap Except.toOption

/-- What items come to: the tokens, if they end with the end of the source, or the error that they
end with. -/
inductive ComesTo : List Item → Except LexError (List Token) → Prop where
  | tokens {ts : List Token} {last : Token} : (∀ t ∈ ts, t.kind ≠ .eos) → last.kind = .eos →
      ComesTo ((ts ++ [last]).map .ok) (.ok (ts ++ [last]))
  | error {ts : List Token} {e : LexError} : (∀ t ∈ ts, t.kind ≠ .eos) →
      ComesTo (ts.map .ok ++ [.error e]) (.error e)

/-- The text of a token is what its span covers; spans count bytes. -/
def Token.StandsIn (t : Token) (source : String) : Prop :=
  ∃ before behind, source = before ++ t.text ++ behind ∧ t.span.start = before.utf8ByteSize ∧
    t.span.stop = (before ++ t.text).utf8ByteSize

/-- What the text of a token says about its kind. -/
structure Token.KindByText (t : Token) : Prop where
  symbol : ∀ s : Symbol, t.kind = .symbol s ↔ t.text = s.text
  keyword : ∀ k : Keyword, t.kind = .keyword k ↔ t.text = k.text
  int : ∀ n : Nat, t.kind = .int n ↔ t.text ≠ "" ∧ AllDigits t.text.toList ∧
    Nat.ofDigitChars 10 t.text.toList 0 = n ∧ n ≤ maxInt
  ident : t.kind = .ident ↔ IsIdentifier t.text.toList ∧ ¬IsReserved t.text.toList
  string : t.kind = .string ↔ t.text.toList.head? = some '"'
  eos : t.kind = .eos ↔ t.text = ""

end JackToolchain.Jack
