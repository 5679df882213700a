import JackToolchain.Jack.Tree
import JackToolchain.Jack.TokenStream

/-!
# Reading trees

One reader for each rule of the grammar.  A reader decides by the token in view, and only a term
that begins with an identifier looks at the token behind it as well, to tell a variable from an
element of an array and from a call.  So a reader fails at the first token that cannot go on, or at
the lexical error that stands there.

Terms and statements contain each other.  Their readers `termAt` and `statementAt` recurse on fuel,
of which each level of nesting and each round of a loop takes one step; since both consume a token,
the fuel that `Reading.withFuel` provides is enough.  The other readers are built from these by
plain combination.
-/

namespace JackToolchain.Jack.Parse

open Reading

variable {α : Type}

/-! ### Names, types and literals -/

/-- `identifier` -/
def ident : Reading Ident := do
  let t ← expect .ident
  return ⟨t.text, t.span⟩

/-- Reads one or more items with commas between them, after those of `done`, newest first. -/
def separatedFrom (item : Reading α) : Nat → List α → Reading (List α)
  | 0, _ => exhausted
  | fuel + 1, done => do
    let x ← item
    match ← accept (.symbol .comma) with
    | some _ => separatedFrom item fuel (x :: done)
    | none => return (x :: done).reverse

/-- `item (',' item)*` -/
def separated (item : Reading α) (fuel : Nat) : Reading (List α) := separatedFrom item fuel []

/-- Reads items as long as the kind of the token in view begins one, after those of `done`, newest
first. -/
def whileFrom (begins : Kind → Bool) (item : Reading α) : Nat → List α → Reading (List α)
  | 0, _ => exhausted
  | fuel + 1, done => do
    if begins (← peekKind) then
      let x ← item
      whileFrom begins item fuel (x :: done)
    else
      return done.reverse

/-- `item*`, where the kinds that begin an item are given. -/
def many (begins : Kind → Bool) (item : Reading α) (fuel : Nat) : Reading (List α) :=
  whileFrom begins item fuel []

/-- `'int' | 'char' | 'boolean' | identifier` -/
def typeName : Reading TypeName := do
  match ← peekKind with
  | .keyword .int => discard next; return .int
  | .keyword .char => discard next; return .char
  | .keyword .boolean => discard next; return .boolean
  | .ident => return .named (← ident)
  | _ => unexpected "type"

/-- `'void' | type` -/
def returnType : Reading ReturnType := do
  match ← accept (.keyword .void) with
  | some _ => return .void
  | none => return .value (← typeName)

/-- The value that a token stands for, if it is a literal. -/
def literalOf? (t : Token) : Option Literal :=
  match t.kind with
  | .int value => some (.int value t.text)
  | .string => some (.string t.contents t.span)
  | .keyword .true => some .true
  | .keyword .false => some .false
  | .keyword .null => some .null
  | .keyword .this => some .this
  | _ => none

/-- `integer | string | 'true' | 'false' | 'null' | 'this'` -/
def literal : Reading Literal := do
  match literalOf? (← peek) with
  | some value => discard next; return value
  | none => unexpected "literal"

/-! ### Expressions -/

/-- Reads operands, after those of `done`, newest first. -/
def operandsFrom (term : Reading Term) : Nat → List Operand → Reading (List Operand)
  | 0, _ => exhausted
  | fuel + 1, done => do
    match BinaryOp.ofKind? (← peekKind) with
    | some op =>
      discard next
      let t ← term
      operandsFrom term fuel (.mk op t :: done)
    | none => return done.reverse

/-- `term (op term)*` -/
def exprOf (term : Reading Term) (fuel : Nat) : Reading Expr := do
  let head ← term
  return .mk head (← operandsFrom term fuel [])

/-- `'(' expression ')'` -/
def parenOf (expr : Reading Expr) : Reading Expr := do
  discard <| expect (.symbol .leftParen)
  let inner ← expr
  discard <| expect (.symbol .rightParen)
  return inner

/-- `'[' expression ']'` -/
def subscriptOf (expr : Reading Expr) : Reading Expr := do
  discard <| expect (.symbol .leftBracket)
  let inner ← expr
  discard <| expect (.symbol .rightBracket)
  return inner

/-- `[expression (',' expression)*]`, up to a closing parenthesis. -/
def argsOf (expr : Reading Expr) (fuel : Nat) : Reading (List Expr) := do
  if (← peekKind) = .symbol .rightParen then return [] else separated expr fuel

/-- `[identifier '.'] identifier '(' arguments ')'` -/
def callOf (expr : Reading Expr) (fuel : Nat) : Reading Call := do
  let first ← ident
  let (receiver, name) ←
    match ← accept (.symbol .dot) with
    | some _ => pure (some first, ← ident)
    | none => pure (none, first)
  let paren ← expect (.symbol .leftParen)
  let args ← argsOf expr fuel
  discard <| expect (.symbol .rightParen)
  return .mk receiver name paren.span args

/-- `literal | variable | variable subscript | call | '(' expression ')' | unaryOp term` -/
def termAt : Nat → Reading Term
  | 0 => exhausted
  | fuel + 1 => do
    let expr := exprOf (termAt fuel) fuel
    match ← peekKind with
    | .int _ | .string | .keyword .true | .keyword .false | .keyword .null | .keyword .this =>
      return .literal (← literal)
    | .ident =>
      match ← peekSecond with
      | .symbol .leftBracket =>
        let array ← ident
        return .element array (← subscriptOf expr)
      | .symbol .leftParen | .symbol .dot => return .call (← callOf expr fuel)
      | _ => return .var (← ident)
    | .symbol .leftParen => return .paren (← parenOf expr)
    | .symbol .minus =>
      discard next
      return .unary .neg (← termAt fuel)
    | .symbol .tilde =>
      discard next
      return .unary .not (← termAt fuel)
    | _ => unexpected "term"

/-- An expression, read with the given fuel. -/
def exprAt (fuel : Nat) : Reading Expr := exprOf (termAt fuel) fuel

/-! ### Statements -/

/-- The kinds of token that begin a statement. -/
def beginsStatement : Kind → Bool
  | .keyword .let | .keyword .if | .keyword .while | .keyword .do | .keyword .return => true
  | _ => false

/-- `'{' statement* '}'` -/
def blockOf (statement : Reading Statement) (fuel : Nat) : Reading (List Statement) := do
  discard <| expect (.symbol .leftBrace)
  let body ← many beginsStatement statement fuel
  discard <| expect (.symbol .rightBrace)
  return body

/-- `'let' identifier [subscript] '=' expression ';'` -/
def letOf (expr : Reading Expr) : Reading Statement := do
  discard <| expect (.keyword .let)
  let name ← ident
  let subscript ←
    if (← peekKind) = .symbol .leftBracket then some <$> subscriptOf expr else pure none
  discard <| expect (.symbol .equals)
  let value ← expr
  discard <| expect (.symbol .semicolon)
  match subscript with
  | some subscript => return .assignElement name subscript value
  | none => return .assign name value

/-- `'if' '(' expression ')' block ['else' block]` -/
def ifOf (expr : Reading Expr) (block : Reading (List Statement)) : Reading Statement := do
  discard <| expect (.keyword .if)
  let condition ← parenOf expr
  let body ← block
  match ← accept (.keyword .else) with
  | some _ => return .ifElse condition body (← block)
  | none => return .ifThen condition body

/-- `'while' '(' expression ')' block` -/
def whileOf (expr : Reading Expr) (block : Reading (List Statement)) : Reading Statement := do
  discard <| expect (.keyword .while)
  let condition ← parenOf expr
  return .while condition (← block)

/-- `'do' call ';'` -/
def doOf (call : Reading Call) : Reading Statement := do
  discard <| expect (.keyword .do)
  let call ← call
  discard <| expect (.symbol .semicolon)
  return .do call

/-- `'return' [expression] ';'` -/
def returnOf (expr : Reading Expr) : Reading Statement := do
  discard <| expect (.keyword .return)
  let value ← if (← peekKind) = .symbol .semicolon then pure none else some <$> expr
  discard <| expect (.symbol .semicolon)
  return .return value

/-- `let | if | while | do | return` -/
def statementAt : Nat → Reading Statement
  | 0 => exhausted
  | fuel + 1 => do
    let block := blockOf (statementAt fuel) fuel
    match ← peekKind with
    | .keyword .let => letOf (exprAt fuel)
    | .keyword .if => ifOf (exprAt fuel) block
    | .keyword .while => whileOf (exprAt fuel) block
    | .keyword .do => doOf (callOf (exprAt fuel) fuel)
    | .keyword .return => returnOf (exprAt fuel)
    | _ => unexpected "statement"

/-- `statement*`, read with the given fuel. -/
def statementsAt (fuel : Nat) : Reading (List Statement) :=
  many beginsStatement (statementAt fuel) fuel

/-- `'{' statement* '}'`, read with the given fuel. -/
def blockAt (fuel : Nat) : Reading (List Statement) := blockOf (statementAt fuel) fuel

/-! ### Declarations -/

/-- `identifier (',' identifier)*` -/
def namesAt (fuel : Nat) : Reading (List Ident) := separated ident fuel

/-- `type identifier` -/
def parameter : Reading Parameter := do
  let type ← typeName
  return ⟨type, ← ident⟩

/-- `'var' type names ';'` -/
def varDecAt (fuel : Nat) : Reading VarDec := do
  discard <| expect (.keyword .var)
  let type ← typeName
  let names ← namesAt fuel
  discard <| expect (.symbol .semicolon)
  return ⟨type, names⟩

/-- `'{' varDec* statement* '}'` -/
def bodyAt (fuel : Nat) : Reading (List VarDec × List Statement) := do
  discard <| expect (.symbol .leftBrace)
  let locals ← many (· == .keyword .var) (varDecAt fuel) fuel
  let body ← statementsAt fuel
  discard <| expect (.symbol .rightBrace)
  return (locals, body)

/-- The kind of subroutine that a token of the given kind announces. -/
def subroutineKind? : Kind → Option SubroutineKind
  | .keyword .constructor => some .constructor
  | .keyword .function => some .function
  | .keyword .method => some .method
  | _ => none

/-- `[parameter (',' parameter)*]`, up to a closing parenthesis. -/
def parametersAt (fuel : Nat) : Reading (List Parameter) := do
  if (← peekKind) = .symbol .rightParen then return [] else separated parameter fuel

/-- `('constructor' | 'function' | 'method') returnType identifier '(' parameters ')' body` -/
def subroutineAt (fuel : Nat) : Reading Subroutine := do
  match subroutineKind? (← peekKind) with
  | none => unexpected "subroutine declaration"
  | some kind =>
    discard next
    let returns ← returnType
    let name ← ident
    discard <| expect (.symbol .leftParen)
    let parameters ← parametersAt fuel
    discard <| expect (.symbol .rightParen)
    let (locals, body) ← bodyAt fuel
    return ⟨kind, returns, name, parameters, locals, body⟩

/-- The kind of class variable that a token of the given kind announces. -/
def classVarKind? : Kind → Option ClassVarKind
  | .keyword .static => some .static
  | .keyword .field => some .field
  | _ => none

/-- `('static' | 'field') type names ';'` -/
def classVarDecAt (fuel : Nat) : Reading ClassVarDec := do
  match classVarKind? (← peekKind) with
  | none => unexpected "class variable declaration"
  | some kind =>
    discard next
    let type ← typeName
    let names ← namesAt fuel
    discard <| expect (.symbol .semicolon)
    return ⟨kind, type, names⟩

/-- `'class' identifier '{' classVarDec* subroutine* '}'` -/
def classAt (fuel : Nat) : Reading Class := do
  discard <| expect (.keyword .class)
  let name ← ident
  discard <| expect (.symbol .leftBrace)
  let classVars ← many (fun k => (classVarKind? k).isSome) (classVarDecAt fuel) fuel
  let subroutines ← many (fun k => (subroutineKind? k).isSome) (subroutineAt fuel) fuel
  discard <| expect (.symbol .rightBrace)
  return ⟨name, classVars, subroutines⟩

/-- `class`, behind which the source ends. -/
def unitAt (fuel : Nat) : Reading Class := do
  let unit ← classAt fuel
  if (← peekKind) = .eos then
    discard next
    return unit
  else
    unexpected "end of source"

end JackToolchain.Jack.Parse

namespace JackToolchain.Jack

/-- Reads the class that a source consists of. -/
def parseUnit (source : String) : Except SyntaxError Class :=
  match (Reading.withFuel Parse.unitAt).run (TokenStream.ofSource source) with
  | .ok unit _ => .ok unit
  | .error e _ => .error e

end JackToolchain.Jack
