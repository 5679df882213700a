import JackToolchain.Word
import JackToolchain.Jack.TokenStream

/-!
# What can go wrong when a class is compiled

A source may be misspelled, or its tokens may not form a class; a class may use a variable that is
not there, or have more of something than a command of the virtual machine can say; and the sink may
be full.
-/

namespace JackToolchain.Jack

/-- What a variable is used for. -/
inductive Use where
  | inExpression
  /-- Its element is read. -/
  | inElement
  /-- It, or an element of it, is assigned to. -/
  | inAssignment
deriving Repr, DecidableEq

/-- How a message names a use. -/
def Use.description : Use → String
  | .inExpression => "expression"
  | .inElement => "array access"
  | .inAssignment => "let statement"

/-- What there may be at most 65535 of. -/
inductive Quota where
  /-- Variables of one kind in their scope. -/
  | variablesOfKind
  /-- UTF-16 units of a string constant. -/
  | stringUnits
  /-- Arguments of a call, its receiver included. -/
  | arguments
deriving Repr, DecidableEq

/-- How a message names what is counted. -/
def Quota.description : Quota → String
  | .variablesOfKind => "variables of one kind"
  | .stringUnits => "characters in string constant"
  | .arguments => "arguments"

/-- Why a class was not compiled. -/
inductive CompileError where
  | lexical (error : LexError)
  /-- The source is spelled well, and the error is not a lexical one. -/
  | syntactic (error : SyntaxError)
  /-- A name in the place of a variable that no variable has. -/
  | undefined (name : String) (span : Span) (use : Use)
  | tooMany (quota : Quota) (span : Span)
  | sinkFull
deriving Repr, DecidableEq

namespace CompileError

/-- A syntax error as a compilation error.  A lexical error met by the parser is still lexical. -/
def ofSyntax : SyntaxError → CompileError
  | .lexical e => .lexical e
  | e => .syntactic e

/-- The wording of a compilation error. -/
def message : CompileError → String
  | .lexical e => "lexical error: " ++ e.message
  | .syntactic e => "syntax error: " ++ e.message
  | .undefined name span use =>
    "resolution error: " ++ span.place ++ ": undefined variable '" ++ name ++ "' in "
      ++ use.description
  | .tooMany quota span =>
    "limit error: " ++ span.place ++ ": number of " ++ quota.description ++ " exceeds "
      ++ toString Word.maxNat
  | .sinkFull => "failed to write whole buffer"

end CompileError

end JackToolchain.Jack
