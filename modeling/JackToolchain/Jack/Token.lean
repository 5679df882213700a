/-!
# The words of Jack

A Jack source is a sequence of *lexemes*: nineteen symbols, twenty-one keywords, integer and string
constants, and identifiers.  A lexeme pairs its kind with the text that spells it, quotes and
leading zeros included, so that nothing of the source but its layout is lost.  A *token* is a lexeme
together with its place in the source; the end of the source counts as a token of its own, spelled
by the empty text.
-/

namespace JackToolchain.Jack

/-! ### Symbols and keywords -/

/-- The characters that are lexemes by themselves. -/
inductive Symbol where
  | leftBrace | rightBrace | leftParen | rightParen | leftBracket | rightBracket
  | dot | comma | semicolon | plus | minus | star | slash | amp | pipe | less | greater
    | equals | tilde
deriving Repr, DecidableEq, Inhabited

namespace Symbol

/-- The character that spells a symbol. -/
def char : Symbol → Char
  | leftBrace => '\x7b'
  | rightBrace => '\x7d'
  | leftParen => '('
  | rightParen => ')'
  | leftBracket => '['
  | rightBracket => ']'
  | dot => '.'
  | comma => ','
  | semicolon => ';'
  | plus => '+'
  | minus => '-'
  | star => '*'
  | slash => '/'
  | amp => '&'
  | pipe => '|'
  | less => '<'
  | greater => '>'
  | equals => '='
  | tilde => '~'

/-- Every symbol once. -/
def all : List Symbol :=
  [leftBrace, rightBrace, leftParen, rightParen, leftBracket, rightBracket, dot, comma, semicolon,
    plus, minus, star, slash, amp, pipe, less, greater, equals, tilde]

/-- The symbol that a character spells. -/
def ofChar? (c : Char) : Option Symbol := all.find? fun s => s.char == c

/-- The text that spells a symbol. -/
def text (s : Symbol) : String := String.singleton s.char

theorem ofChar?_char (s : Symbol) : ofChar? s.char = some s := by
  cases s <;> decide

theorem char_eq_of_ofChar? {c : Char} {s : Symbol} (h : ofChar? c = some s) : s.char = c := by
  simpa using List.find?_some h

theorem ofChar?_eq_some_iff {c : Char} {s : Symbol} : ofChar? c = some s ↔ c = s.char :=
  ⟨fun h => (char_eq_of_ofChar? h).symm, fun h => h ▸ ofChar?_char s⟩

end Symbol

/-- The words that are reserved and cannot name anything. -/
inductive Keyword where
  | «class» | constructor | function | method | field | static | var | int | char | boolean | void
  | true | false | null | this | let | do | if | else | while | return
deriving Repr, DecidableEq, Inhabited

namespace Keyword

/-- The text that spells a keyword. -/
def text : Keyword → String
  | .class => "class"
  | .constructor => "constructor"
  | .function => "function"
  | .method => "method"
  | .field => "field"
  | .static => "static"
  | .var => "var"
  | .int => "int"
  | .char => "char"
  | .boolean => "boolean"
  | .void => "void"
  | .true => "true"
  | .false => "false"
  | .null => "null"
  | .this => "this"
  | .let => "let"
  | .do => "do"
  | .if => "if"
  | .else => "else"
  | .while => "while"
  | .return => "return"

/-- Every keyword once. -/
def all : List Keyword :=
  [.class, .constructor, .function, .method, .field, .static, .var, .int, .char, .boolean, .void,
    .true, .false, .null, .this, .let, .do, .if, .else, .while, .return]

/-- The keyword that a text spells. -/
def ofText? (text : String) : Option Keyword := all.find? fun k => k.text == text

theorem text_eq_of_ofText? {t : String} {k : Keyword} (h : ofText? t = some k) : k.text = t := by
  simpa using List.find?_some h

theorem ofText?_text (k : Keyword) : ofText? k.text = some k := by
  cases k <;> decide

end Keyword

/-! ### Kinds, lexemes and tokens -/

/-- What a lexeme is, as far as the grammar cares. -/
inductive Kind where
  | symbol (s : Symbol)
  | keyword (k : Keyword)
  /-- An integer constant with its value. -/
  | int (value : Nat)
  | string
  | ident
  /-- The end of the source. -/
  | eos
deriving Repr, DecidableEq, Inhabited

/-- The greatest integer constant of the language. -/
def maxInt : Nat := 32767

namespace Kind

/-- How a message names a kind that it expects. -/
def description : Kind → String
  | .symbol s => "'" ++ s.text ++ "'"
  | .keyword k => "'" ++ k.text ++ "'"
  | .int _ => "integer constant"
  | .string => "string constant"
  | .ident => "identifier"
  | .eos => "end of source"

/-- The element that holds a lexeme of this kind in XML. -/
def tag : Kind → String
  | .symbol _ => "symbol"
  | .keyword _ => "keyword"
  | .int _ => "integerConstant"
  | .string => "stringConstant"
  | .ident => "identifier"
  | .eos => "eos"

end Kind

/-- A kind and the text that spells it. -/
structure Lexeme where
  kind : Kind
  text : String
deriving Repr, DecidableEq, Inhabited

namespace Lexeme

/-- The lexeme of a symbol. -/
def ofSymbol (s : Symbol) : Lexeme := ⟨.symbol s, s.text⟩

/-- The lexeme of a keyword. -/
def ofKeyword (k : Keyword) : Lexeme := ⟨.keyword k, k.text⟩

/-- The lexeme of a string constant with the given contents. -/
def ofString (contents : String) : Lexeme := ⟨.string, "\"" ++ contents ++ "\""⟩

/-- The text of a lexeme, without the quotes if it is a string constant. -/
def contents (l : Lexeme) : String :=
  match l.kind with
  | .string => String.ofList (l.text.toList.drop 1).dropLast
  | _ => l.text

end Lexeme

/-- A stretch of the source: byte offsets, the end excluded, and the place of the first character.
Lines and columns count from one, columns in characters. -/
structure Span where
  start : Nat
  stop : Nat
  line : Nat
  column : Nat
deriving Repr, DecidableEq, Inhabited

/-- How a message cites a place. -/
def Span.place (s : Span) : String := toString s.line ++ ":" ++ toString s.column

/-- A lexeme at its place in the source. -/
structure Token extends Lexeme where
  span : Span
deriving Repr, DecidableEq, Inhabited

/-- How a message names a token that it found. -/
def Token.describe (t : Token) : String :=
  match t.kind with
  | .eos => Kind.eos.description
  | _ => "'" ++ t.text ++ "'"

end JackToolchain.Jack
