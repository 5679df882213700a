import JackToolchain.Jack.Token

/-!
# The tree of a class

A Jack source holds one class.  Its tree keeps what the grammar distinguishes and what the source
alone can tell: names, literals as they are spelled, and the places that later messages cite.
Punctuation is not kept, since the grammar determines it.

An expression is a first term and a list of operands, each an operator and a term.  The language has
no precedence, so the list says it all: operands apply from left to right.
-/

namespace JackToolchain.Jack

/-- An occurrence of a name. -/
structure Ident where
  name : String
  span : Span
deriving Repr, DecidableEq, Inhabited

/-- The type of a variable. -/
inductive TypeName where
  | int
  | char
  | boolean
  /-- A class of the program or of the library. -/
  | named (name : Ident)
deriving Repr, DecidableEq, Inhabited

/-- The name of a type. -/
def TypeName.name : TypeName → String
  | .int => Keyword.int.text
  | .char => Keyword.char.text
  | .boolean => Keyword.boolean.text
  | .named name => name.name

/-- What a subroutine returns. -/
inductive ReturnType where
  | void
  | value (type : TypeName)
deriving Repr, DecidableEq, Inhabited

/-! ### Expressions -/

/-- Operators between two terms. -/
inductive BinaryOp where
  | add | sub | mul | div | and | or | lt | gt | eq
deriving Repr, DecidableEq, Inhabited

namespace BinaryOp

/-- The symbol that spells an operator. -/
def symbol : BinaryOp → Symbol
  | add => .plus
  | sub => .minus
  | mul => .star
  | div => .slash
  | and => .amp
  | or => .pipe
  | lt => .less
  | gt => .greater
  | eq => .equals

/-- The operator that a token of the given kind spells. -/
def ofKind? : Kind → Option BinaryOp
  | .symbol .plus => some add
  | .symbol .minus => some sub
  | .symbol .star => some mul
  | .symbol .slash => some div
  | .symbol .amp => some and
  | .symbol .pipe => some or
  | .symbol .less => some lt
  | .symbol .greater => some gt
  | .symbol .equals => some eq
  | _ => none

end BinaryOp

/-- Operators before a term. -/
inductive UnaryOp where
  /-- Arithmetic negation. -/
  | neg
  /-- Bitwise complement. -/
  | not
deriving Repr, DecidableEq, Inhabited

/-- The symbol that spells an operator. -/
def UnaryOp.symbol : UnaryOp → Symbol
  | neg => .minus
  | not => .tilde

/-- Constants and the keywords that stand for values. -/
inductive Literal where
  /-- An integer constant and the digits that spell it. -/
  | int (value : Nat) (digits : String)
  /-- A string constant without its quotes. -/
  | string (contents : String) (span : Span)
  | true
  | false
  | null
  | this
deriving Repr, DecidableEq, Inhabited

mutual

/-- A term of an expression. -/
inductive Term where
  | literal (value : Literal)
  | var (name : Ident)
  /-- An element of an array, `name[subscript]`. -/
  | element (array : Ident) (subscript : Expr)
  | call (call : Call)
  | paren (inner : Expr)
  | unary (op : UnaryOp) (operand : Term)

/-- A term and the operands that are applied to it from left to right. -/
inductive Expr where
  | mk (head : Term) (tail : List Operand)

/-- An operator and the term behind it. -/
inductive Operand where
  | mk (op : BinaryOp) (term : Term)

/-- A call of a subroutine, `name(args)` or `receiver.name(args)`.  The receiver is a variable or a
class. -/
inductive Call where
  | mk (receiver : Option Ident) (name : Ident) (paren : Span) (args : List Expr)

end

/-- The terms of an expression that are not inside others. -/
def Expr.termCount : Expr → Nat
  | .mk _ tail => tail.length + 1

/-- The class or variable that a call is directed to. -/
def Call.receiver : Call → Option Ident
  | .mk receiver _ _ _ => receiver

/-- The name of the subroutine that a call is for. -/
def Call.name : Call → Ident
  | .mk _ name _ _ => name

/-- The arguments that a call lists. -/
def Call.args : Call → List Expr
  | .mk _ _ _ args => args

/-! ### Statements and declarations -/

/-- A statement. -/
inductive Statement where
  /-- Assignment to a variable, `let target = value;`. -/
  | assign (target : Ident) (value : Expr)
  /-- Assignment to an element of an array, `let array[subscript] = value;`. -/
  | assignElement (array : Ident) (subscript value : Expr)
  | ifThen (condition : Expr) (body : List Statement)
  | ifElse (condition : Expr) (body alternative : List Statement)
  | while (condition : Expr) (body : List Statement)
  /-- A call whose result is dropped. -/
  | do (call : Call)
  | return (value : Option Expr)

/-- A parameter of a subroutine. -/
structure Parameter where
  type : TypeName
  name : Ident
deriving Repr, DecidableEq, Inhabited

/-- A declaration of local variables. -/
structure VarDec where
  type : TypeName
  names : List Ident
deriving Repr, DecidableEq, Inhabited

/-- What kind of subroutine a declaration is for. -/
inductive SubroutineKind where
  /-- Makes an object of the class. -/
  | constructor
  /-- Belongs to the class as a whole. -/
  | function
  /-- Belongs to an object, which is its hidden first argument. -/
  | method
deriving Repr, DecidableEq, Inhabited

/-- A subroutine of a class. -/
structure Subroutine where
  kind : SubroutineKind
  returns : ReturnType
  name : Ident
  parameters : List Parameter
  locals : List VarDec
  body : List Statement

/-- Whom a variable of a class belongs to. -/
inductive ClassVarKind where
  /-- The class as a whole. -/
  | static
  /-- Each object of the class. -/
  | field
deriving Repr, DecidableEq, Inhabited

/-- A declaration of variables of a class. -/
structure ClassVarDec where
  kind : ClassVarKind
  type : TypeName
  names : List Ident
deriving Repr, DecidableEq, Inhabited

/-- A class. -/
structure Class where
  name : Ident
  classVars : List ClassVarDec
  subroutines : List Subroutine

end JackToolchain.Jack
