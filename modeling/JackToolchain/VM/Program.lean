import JackToolchain.Text.Lines
import JackToolchain.VM.Command

/-!
# Reading programs of the virtual machine

A program is read line by line.  What follows `//` is a comment; a line that is blank otherwise is
skipped, and any other line is one command, whose words are separated by blanks.  Reading stops at
the first line that is no command, and says which one it is and what is wrong with it.
-/

namespace JackToolchain.VM

/-- What can be wrong with a command. -/
inductive Fault where
  /-- There are no words at all. -/
  | emptyCommand
  | unknownCommand (word : String)
  | unknownSegment (word : String)
  | missingOperand (command : String)
  | notANumber (command word : String)
  | extraOperand (word command : String)
  /-- A constant cannot be stored to. -/
  | popIntoConstant (index : Word)
  /-- The segment has no cell of that index. -/
  | indexOutOfRange (segment : Segment) (index : Word)
deriving Repr, DecidableEq

/-- The wording of a fault. -/
def Fault.message : Fault → String
  | .emptyCommand => "empty command"
  | .unknownCommand word => "unknown command '" ++ word ++ "'"
  | .unknownSegment word => "unknown segment '" ++ word ++ "'"
  | .missingOperand command => command ++ " is missing an operand"
  | .notANumber command word => command ++ " expects a number, found '" ++ word ++ "'"
  | .extraOperand word command => "unexpected operand '" ++ word ++ "' after " ++ command
  | .popIntoConstant index => "cannot pop into constant " ++ index.decimal
  | .indexOutOfRange segment index => segment.name ++ " index " ++ index.decimal ++ " out of range"

/-- A fault and the line it is on, from one, if the command comes from a text. -/
structure Error where
  line : Option Nat
  fault : Fault
deriving Repr, DecidableEq

/-- The wording of an error. -/
def Error.message (e : Error) : String :=
  match e.line with
  | none => e.fault.message
  | some line => "line " ++ toString line ++ ": " ++ e.fault.message

/-! ### Commands from words -/

/-- The word that a number spells: decimal digits, which a plus sign may precede. -/
def readNumber? (text : String) : Option Word :=
  let digits :=
    match text.toList with
    | '+' :: digits => digits
    | digits => digits
  if digits.isEmpty || !digits.all Char.isDigit then none
  else Word.ofNat? (Text.decimalValue digits)

namespace Command

/-- The next operand of the named command, and the operands after it. -/
def operand (command : String) : List String → Except Fault (String × List String)
  | [] => .error (.missingOperand command)
  | word :: rest => .ok (word, rest)

/-- The next operand, which has to be a segment. -/
def segmentOperand (command : String) (operands : List String) :
    Except Fault (Segment × List String) := do
  let (word, rest) ← operand command operands
  match Segment.ofName? word with
  | some segment => return (segment, rest)
  | none => throw (.unknownSegment word)

/-- The next operand, which has to be a number. -/
def numberOperand (command : String) (operands : List String) :
    Except Fault (Word × List String) := do
  let (word, rest) ← operand command operands
  match readNumber? word with
  | some n => return (n, rest)
  | none => throw (.notANumber command word)

/-- The command of a given name, read from its operands, and the operands that it leaves. -/
def ofOperands (name : String) (operands : List String) : Except Fault (Command × List String) := do
  match name with
  | "push" =>
    let (segment, rest) ← segmentOperand name operands
    let (index, rest) ← numberOperand name rest
    return (push segment index, rest)
  | "pop" =>
    let (segment, rest) ← segmentOperand name operands
    let (index, rest) ← numberOperand name rest
    return (pop segment index, rest)
  | "label" =>
    let (target, rest) ← operand name operands
    return (label target, rest)
  | "goto" =>
    let (target, rest) ← operand name operands
    return (goto target, rest)
  | "if-goto" =>
    let (target, rest) ← operand name operands
    return (ifGoto target, rest)
  | "function" =>
    let (target, rest) ← operand name operands
    let (locals, rest) ← numberOperand name rest
    return (function target locals, rest)
  | "call" =>
    let (target, rest) ← operand name operands
    let (args, rest) ← numberOperand name rest
    return (call target args, rest)
  | "return" => return (ret, operands)
  | _ =>
    match ArithOp.ofName? name with
    | some op => return (arith op, operands)
    | none => throw (.unknownCommand name)

/-- The command that consists of the given words. -/
def ofWords : List String → Except Fault Command
  | [] => .error .emptyCommand
  | name :: operands => do
    match ← ofOperands name operands with
    | (command, []) => return command
    | (_, extra :: _) => throw (.extraOperand extra name)

/-- The command that a line without comment spells. -/
def ofText (text : List Char) : Except Fault Command :=
  ofWords ((Text.words text).map String.ofList)

end Command

/-! ### Programs -/

/-- A command and the line of its text, from one. -/
structure SourceLine where
  line : Nat
  command : Command
deriving Repr, DecidableEq

/-- Reads the lines from the one with the given number on, after those of `done`, newest first. -/
def readFrom (number : Nat) (done : List SourceLine) :
    List (List Char) → Except Error (List SourceLine)
  | [] => .ok done.reverse
  | text :: rest =>
    let words := (Text.words (Text.beforeComment text)).map String.ofList
    if words.isEmpty then
      readFrom (number + 1) done rest
    else
      match Command.ofWords words with
      | .ok command => readFrom (number + 1) (⟨number, command⟩ :: done) rest
      | .error fault => .error ⟨some number, fault⟩

/-- The commands of a program with their lines. -/
def readProgram (source : String) : Except Error (List SourceLine) :=
  readFrom 1 [] (Text.lines source.toList)

end JackToolchain.VM
