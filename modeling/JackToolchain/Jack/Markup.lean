import JackToolchain.Jack.Tree

/-!
# XML

Two views of a source are written as XML: the flat list of its tokens, and its tree.  In both, a
lexeme is one line, `<tag> text </tag>`, with the four special characters escaped.

A tree is first turned into `Markup`, elements and lexemes in the order of the source, and then
written with one line for each lexeme and for each end of an element, indented by two blanks for
every element around it.  The rules of the grammar have elements, but calls have none of their own,
and neither have types, blocks, conditions and subscripts: their parts stand in the element around
them.
-/

namespace JackToolchain.Jack

/-! ### Lexemes as lines -/

/-- A character as XML writes it. -/
def escapedChar (c : Char) : List Char :=
  match c with
  | '<' => "&lt;".toList
  | '>' => "&gt;".toList
  | '"' => "&quot;".toList
  | '&' => "&amp;".toList
  | c => [c]

/-- A text as XML writes it. -/
def escaped (text : String) : String := String.ofList (text.toList.flatMap escapedChar)

/-- The line for a lexeme, without indentation and line feed. -/
def Lexeme.element (l : Lexeme) : String :=
  "<" ++ l.kind.tag ++ "> " ++ escaped l.contents ++ " </" ++ l.kind.tag ++ ">"

/-- The list of tokens.  The end of the source is not listed. -/
def tokenListing (tokens : List Token) : String :=
  let listed := tokens.filter fun t => t.kind != .eos
  listed.foldl (fun out t => out ++ t.toLexeme.element ++ "\n") "<tokens>\n" ++ "</tokens>\n"

/-! ### Markup -/

/-- Elements and the lexemes in them. -/
inductive Markup where
  | leaf (lexeme : Lexeme)
  | element (tag : String) (children : List Markup)

namespace Markup

/-- Appends the indentation inside the given number of elements. -/
def indent (out : String) (depth : Nat) : String := depth.repeat (· ++ "  ") out

mutual

/-- Appends markup that stands inside the given number of elements. -/
def write (out : String) (depth : Nat) : Markup → String
  | .leaf lexeme => indent out depth ++ lexeme.element ++ "\n"
  | .element tag children =>
    indent (writeAll (indent out depth ++ "<" ++ tag ++ ">\n") (depth + 1) children) depth
      ++ "</" ++ tag ++ ">\n"

/-- Appends one piece of markup after the other. -/
def writeAll (out : String) (depth : Nat) : List Markup → String
  | [] => out
  | m :: ms => writeAll (m.write out depth) depth ms

end

mutual

/-- The lexemes of a piece of markup, in order. -/
def lexemes : Markup → List Lexeme
  | .leaf lexeme => [lexeme]
  | .element _ children => lexemesAll children

/-- The lexemes of one piece of markup after the other. -/
def lexemesAll : List Markup → List Lexeme
  | [] => []
  | m :: ms => m.lexemes ++ lexemesAll ms

end

/-- The text of markup that stands by itself. -/
def render (m : Markup) : String := m.write "" 0

/-- A symbol as a leaf. -/
def symbol (s : Symbol) : Markup := .leaf (.ofSymbol s)

/-- A keyword as a leaf. -/
def keyword (k : Keyword) : Markup := .leaf (.ofKeyword k)

/-- The items of a list with a comma behind each but the last. -/
def separated : List (List Markup) → List Markup
  | [] => []
  | [item] => item
  | item :: items => item ++ symbol .comma :: separated items

end Markup

/-! ### Trees as markup -/

/-- A name as a leaf. -/
def Ident.markup (x : Ident) : Markup := .leaf ⟨.ident, x.name⟩

/-- A type as a leaf. -/
def TypeName.markup : TypeName → Markup
  | .int => .keyword .int
  | .char => .keyword .char
  | .boolean => .keyword .boolean
  | .named name => name.markup

/-- A return type as a leaf. -/
def ReturnType.markup : ReturnType → Markup
  | .void => .keyword .void
  | .value type => type.markup

/-- A literal as a lexeme. -/
def Literal.lexeme : Literal → Lexeme
  | .int value digits => ⟨.int value, digits⟩
  | .string contents _ => .ofString contents
  | .true => .ofKeyword .true
  | .false => .ofKeyword .false
  | .null => .ofKeyword .null
  | .this => .ofKeyword .this

mutual

/-- A term as an element. -/
def Term.markup : Term → Markup
  | .literal value => .element "term" [.leaf value.lexeme]
  | .var name => .element "term" [name.markup]
  | .element array subscript =>
    .element "term" [array.markup, .symbol .leftBracket, subscript.markup, .symbol .rightBracket]
  | .call call => .element "term" call.markup
  | .paren inner => .element "term" [.symbol .leftParen, inner.markup, .symbol .rightParen]
  | .unary op operand => .element "term" [.symbol op.symbol, operand.markup]

/-- An expression as an element. -/
def Expr.markup : Expr → Markup
  | .mk head tail => .element "expression" (head.markup :: operandsMarkup tail)

/-- Operators and terms in turn. -/
def operandsMarkup : List Operand → List Markup
  | [] => []
  | .mk op term :: rest => .symbol op.symbol :: term.markup :: operandsMarkup rest

/-- The parts of a call. -/
def Call.markup : Call → List Markup
  | .mk receiver name _ args =>
    let target :=
      match receiver with
      | some receiver => [receiver.markup, .symbol .dot, name.markup]
      | none => [name.markup]
    target ++ [.symbol .leftParen, .element "expressionList" (argsMarkup args), .symbol .rightParen]

/-- Expressions with commas between them. -/
def argsMarkup : List Expr → List Markup
  | [] => []
  | [arg] => [arg.markup]
  | arg :: rest => arg.markup :: .symbol .comma :: argsMarkup rest

end

/-- An expression in parentheses. -/
def Expr.conditionMarkup (e : Expr) : List Markup :=
  [.symbol .leftParen, e.markup, .symbol .rightParen]

mutual

/-- A statement as an element. -/
def Statement.markup : Statement → Markup
  | .assign target value =>
    .element "letStatement"
      [.keyword .let, target.markup, .symbol .equals, value.markup, .symbol .semicolon]
  | .assignElement array subscript value =>
    .element "letStatement"
      [.keyword .let, array.markup, .symbol .leftBracket, subscript.markup, .symbol .rightBracket,
        .symbol .equals, value.markup, .symbol .semicolon]
  | .ifThen condition body =>
    .element "ifStatement" (.keyword .if :: condition.conditionMarkup ++
      [.symbol .leftBrace, .element "statements" (statementsMarkup body), .symbol .rightBrace])
  | .ifElse condition body alternative =>
    .element "ifStatement" (.keyword .if :: condition.conditionMarkup ++
      [.symbol .leftBrace, .element "statements" (statementsMarkup body), .symbol .rightBrace,
        .keyword .else,
        .symbol .leftBrace, .element "statements" (statementsMarkup alternative),
        .symbol .rightBrace])
  | .while condition body =>
    .element "whileStatement" (.keyword .while :: condition.conditionMarkup ++
      [.symbol .leftBrace, .element "statements" (statementsMarkup body), .symbol .rightBrace])
  | .do call => .element "doStatement" (.keyword .do :: call.markup ++ [.symbol .semicolon])
  | .return none => .element "returnStatement" [.keyword .return, .symbol .semicolon]
  | .return (some value) =>
    .element "returnStatement" [.keyword .return, value.markup, .symbol .semicolon]

/-- One statement after the other. -/
def statementsMarkup : List Statement → List Markup
  | [] => []
  | s :: rest => s.markup :: statementsMarkup rest

end

/-- Names with commas between them. -/
def namesMarkup (names : List Ident) : List Markup :=
  Markup.separated (names.map fun x => [x.markup])

/-- A declaration of local variables as an element. -/
def VarDec.markup (d : VarDec) : Markup :=
  .element "varDec" (.keyword .var :: d.type.markup :: namesMarkup d.names ++ [.symbol .semicolon])

/-- The keyword that announces a subroutine. -/
def SubroutineKind.keyword : SubroutineKind → Keyword
  | .constructor => .constructor
  | .function => .function
  | .method => .method

/-- A subroutine as an element. -/
def Subroutine.markup (s : Subroutine) : Markup :=
  .element "subroutineDec"
    [.keyword s.kind.keyword, s.returns.markup, s.name.markup, .symbol .leftParen,
      .element "parameterList"
        (Markup.separated (s.parameters.map fun p => [p.type.markup, p.name.markup])),
      .symbol .rightParen,
      .element "subroutineBody" (.symbol .leftBrace :: s.locals.map VarDec.markup ++
        [.element "statements" (statementsMarkup s.body), .symbol .rightBrace])]

/-- The keyword that announces a class variable. -/
def ClassVarKind.keyword : ClassVarKind → Keyword
  | .static => .static
  | .field => .field

/-- A declaration of class variables as an element. -/
def ClassVarDec.markup (d : ClassVarDec) : Markup :=
  .element "classVarDec"
    (.keyword d.kind.keyword :: d.type.markup :: namesMarkup d.names ++ [.symbol .semicolon])

/-- A class as an element. -/
def Class.markup (c : Class) : Markup :=
  .element "class" (.keyword .class :: c.name.markup :: .symbol .leftBrace ::
    c.classVars.map ClassVarDec.markup ++ c.subroutines.map Subroutine.markup
    ++ [.symbol .rightBrace])

end JackToolchain.Jack
