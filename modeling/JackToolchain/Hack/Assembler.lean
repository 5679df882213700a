import Std.Data.HashMap
import JackToolchain.Log
import JackToolchain.Text.Lines
import JackToolchain.Text.Quoted
import JackToolchain.Hack.Assembly
import JackToolchain.Hack.Diagnostic
import JackToolchain.Hack.Platform

/-!
# Assembling

A source is assembled line by line: its tokens are divided into lines, each line that is not empty
is read as one `Statement`, and the statements are turned into words in two passes.

* The first pass finds the address of each label, the number of instructions before it.  A label may
  be used before its line.
* The second pass turns each instruction into its word.  A symbol that is neither predefined nor a
  label is a variable; variables get addresses from 16 on, in the order of their first uses.

Addresses are words and wrap like words.  The first line that is wrong, or that declares a symbol
which is already declared, makes the whole source fail; there are no words then.
-/

namespace JackToolchain.Hack

/-! ### Errors -/

/-- What can be wrong with a line. -/
inductive AsmFault where
  /-- A NUL character where a line should begin. -/
  | nullCharacter
  /-- A line begins with an unknown character. -/
  | unknownToken (text : String)
  /-- Something follows the statement of a line. -/
  | endOfLineExpected
  | labelExpected
  | rightParenExpected
  /-- The symbol stands for an address already. -/
  | duplicateSymbol (name : String)
  | constantOutOfRange (digits : String)
  | operandExpected
  /-- A token that no compute instruction has. -/
  | unexpectedToken (kind : TokenKind)
  | unknownDest (text : String)
  | unknownComp (text : String)
  | unknownJump (text : String)
deriving Repr, DecidableEq

/-- The wording of a fault. -/
def AsmFault.message : AsmFault → String
  | .nullCharacter => "unexpected null character"
  | .unknownToken text => "unknown token " ++ Text.quoted text
  | .endOfLineExpected => "expected newline or end-of-file"
  | .labelExpected => "expected label name"
  | .rightParenExpected => "expected ')'"
  | .duplicateSymbol name => "duplicate symbol " ++ Text.quoted name
  | .constantOutOfRange digits =>
    "constant " ++ digits ++ " out of range 0..=" ++ toString maxConstant
  | .operandExpected => "expected constant or symbol after '@'"
  | .unexpectedToken kind => "unexpected " ++ kind.description
  | .unknownDest text => "unknown destination " ++ Text.quoted text
  | .unknownComp text => "unknown computation " ++ Text.quoted text
  | .unknownJump text => "unknown jump " ++ Text.quoted text

/-- A fault and the stretch of the source that it is about. -/
structure Located where
  fault : AsmFault
  span : Span
deriving Repr, DecidableEq

/-- A fault and its place. -/
structure AsmError where
  fault : AsmFault
  place : Place
deriving Repr, DecidableEq

/-- The wording of an error. -/
def AsmError.message (e : AsmError) : String := e.place.report e.fault.message

/-! ### Lines of tokens -/

/-- The tokens of a line and the token that ends it. -/
structure TokenLine where
  body : List Token
  stop : Token
deriving Repr, DecidableEq

/-- Divides tokens into lines, when the tokens of `body` have been read of the current line and the
lines of `done` before it, both newest first. -/
def tokenLinesFrom (body : List Token) (done : List TokenLine) : List Token → List TokenLine
  | [] => done.reverse
  | t :: ts =>
    if t.kind.endsLine then tokenLinesFrom [] (⟨body.reverse, t⟩ :: done) ts
    else tokenLinesFrom (t :: body) done ts

/-- Divides the tokens of a source into lines. -/
def tokenLines (ts : List Token) : List TokenLine := tokenLinesFrom [] [] ts

/-! ### Statements -/

/-- The parts of a text around the first occurrence of a character, if there is one. -/
def splitAtChar (c : Char) (text : List Char) : Option (List Char × List Char) :=
  match text.dropWhile (· != c) with
  | [] => none
  | _ :: rest => some (text.takeWhile (· != c), rest)

namespace Instruction

/-- The instruction that a text without blanks spells, `[dest=]comp[;jump]`. -/
def ofText (text : List Char) : Except AsmFault Instruction := do
  let (dest, rest) :=
    match splitAtChar '=' text with
    | some (dest, rest) => (some (String.ofList dest), rest)
    | none => (none, text)
  let (comp, jump) :=
    match splitAtChar ';' rest with
    | some (comp, jump) => (String.ofList comp, some (String.ofList jump))
    | none => (String.ofList rest, none)
  let dest ←
    match dest with
    | none => pure {}
    | some dest =>
      match Dest.ofText? dest with
      | some x => pure x
      | none => throw (.unknownDest dest)
  let comp ←
    match Comp.ofText? comp with
    | some x => pure x
    | none => throw (.unknownComp comp)
  let jump ←
    match jump with
    | none => pure none
    | some jump =>
      match Jump.ofText? jump with
      | some x => pure (some x)
      | none => throw (.unknownJump jump)
  return { dest, comp, jump }

end Instruction

/-- A statement and the stretch of the source that names what it is about. -/
structure LocatedStatement where
  statement : Statement
  span : Span
deriving Repr, DecidableEq

namespace TokenLine

/-- The first of the tokens that follow, which is the end of the line if there are no others. -/
def firstOf (stop : Token) : List Token → Token
  | [] => stop
  | t :: _ => t

/-- Nothing but the end of the line may follow. -/
def expectEnd : List Token → Except Located Unit
  | [] => .ok ()
  | t :: _ => .error ⟨.endOfLineExpected, t.span⟩

/-- `(name)`, read behind the opening parenthesis. -/
def readLabel (stop : Token) (ts : List Token) : Except Located LocatedStatement := do
  let name := firstOf stop ts
  if name.kind ≠ .symbol then throw ⟨.labelExpected, name.span⟩
  let close := firstOf stop (ts.drop 1)
  if close.kind ≠ .rightParen then throw ⟨.rightParenExpected, close.span⟩
  expectEnd (ts.drop 2)
  return ⟨.label name.text, name.span⟩

/-- What a token behind `@` loads. -/
def readOperand (t : Token) : Except Located Operand :=
  match t.kind with
  | .symbol => .ok (.symbol t.text)
  | .number =>
    let value := Text.decimalValue t.text.toList
    if value ≤ maxConstant then .ok (.constant value)
    else .error ⟨.constantOutOfRange t.text, t.span⟩
  | _ => .error ⟨.operandExpected, t.span⟩

/-- `@value`, read behind the sign. -/
def readLoad (stop : Token) (ts : List Token) : Except Located LocatedStatement := do
  let operand ← readOperand (firstOf stop ts)
  expectEnd (ts.drop 1)
  return ⟨.load operand, (firstOf stop ts).span⟩

/-- A compute instruction that begins with the token `t`.  Blanks between its tokens do not matter;
an error in one of its parts is about the whole instruction. -/
def readCompute (t : Token) (ts : List Token) : Except Located LocatedStatement :=
  match (t :: ts).find? fun x => !x.kind.isInstructionPart with
  | some x => .error ⟨.unexpectedToken x.kind, x.span⟩
  | none =>
    let whole := t.span.merge ((t :: ts).getLastD t).span
    match Instruction.ofText ((t :: ts).flatMap fun x => x.text.toList) with
    | .ok i => .ok ⟨.compute i, whole⟩
    | .error fault => .error ⟨fault, whole⟩

/-- The statement of a line, unless the line is empty.  The source has `size` bytes: an end of file
that is not behind the last of them is a NUL character. -/
def read (size : Nat) (l : TokenLine) : Except Located (Option LocatedStatement) :=
  match l.body with
  | [] =>
    if l.stop.kind = .endOfFile ∧ l.stop.span.stop ≠ size then .error ⟨.nullCharacter, l.stop.span⟩
    else .ok none
  | t :: ts =>
    match t.kind with
    | .at => some <$> readLoad l.stop ts
    | .leftParen => some <$> readLabel l.stop ts
    | .unknown => .error ⟨.unknownToken t.text, t.span⟩
    | _ => some <$> readCompute t ts

end TokenLine

/-! ### First pass -/

/-- The instructions of a program, in order, and the addresses of its symbols. -/
structure Program where
  instructions : Array Statement := #[]
  symbols : Std.HashMap String Word := .ofList predefinedSymbols

namespace Program

/-- Adds a statement.  A label must not stand for an address already. -/
def add : Program → LocatedStatement → Except Located Program
  | ⟨instructions, symbols⟩, ⟨.label name, span⟩ =>
    if symbols.contains name then .error ⟨.duplicateSymbol name, span⟩
    else .ok ⟨instructions, symbols.insert name (BitVec.ofNat 16 instructions.size)⟩
  | ⟨instructions, symbols⟩, ⟨s, _⟩ => .ok ⟨instructions.push s, symbols⟩

/-- Adds the statements of lines, of a source of `size` bytes. -/
def addLines (size : Nat) (p : Program) : List TokenLine → Except Located Program
  | [] => .ok p
  | l :: ls =>
    match l.read size with
    | .error e => .error e
    | .ok none => addLines size p ls
    | .ok (some s) =>
      match p.add s with
      | .error e => .error e
      | .ok p => addLines size p ls

/-- The program of a source. -/
def ofSource (source : String) : Except Located Program :=
  addLines source.utf8ByteSize {} (tokenLines (tokens source))

/-! ### Second pass -/

/-- The words of the instructions that are left, behind those of `done`.  The next variable gets the
address `free`. -/
def resolveFrom (symbols : Std.HashMap String Word) (free : Word) (done : Array Word) :
    List Statement → Array Word
  | [] => done
  | .label _ :: rest => resolveFrom symbols free done rest
  | .compute i :: rest => resolveFrom symbols free (done.push i.encode) rest
  | .load (.constant value) :: rest =>
    resolveFrom symbols free (done.push (BitVec.ofNat 16 value)) rest
  | .load (.symbol name) :: rest =>
    match symbols[name]? with
    | some address => resolveFrom symbols free (done.push address) rest
    | none => resolveFrom (symbols.insert name free) (free + 1) (done.push free) rest

/-- The words of a program. -/
def resolve (p : Program) : Array Word :=
  resolveFrom p.symbols variableStart #[] p.instructions.toList

/-- The record that the first pass makes. -/
def record (p : Program) : Log.Record :=
  Log.debug "hack::asm::assembler"
    ("parsed " ++ toString p.instructions.size ++ " instructions, " ++ toString p.symbols.size
    ++ " symbols")

end Program

/-- Assembling with the records it makes on its way. -/
structure Assembling where
  records : List Log.Record
  words : Except AsmError (Array Word)

/-- Assembles a source and tells what has been done. -/
def assembleWithRecords (source : String) : Assembling :=
  match Program.ofSource source with
  | .ok p => ⟨[p.record], .ok p.resolve⟩
  | .error e => ⟨[], .error ⟨e.fault, .ofSpan source.toList e.span⟩⟩

/-- The words of a source. -/
def assemble (source : String) : Except AsmError (Array Word) := (assembleWithRecords source).words

end JackToolchain.Hack
