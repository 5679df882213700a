import JackToolchain.Hack.Instruction

/-!
# Assembly programs and ROM files

A line of an assembly program declares a label, loads a constant or an address, computes, or is a
comment.  A `.hack` file has one line for each word of an assembled program, the sixteen binary
digits of the word.
-/

namespace JackToolchain.Hack

/-! ### Assembly programs -/

/-- What an instruction loads. -/
inductive Operand where
  | constant (value : Nat)
  /-- The address that a symbol stands for. -/
  | symbol (name : String)
deriving Repr, DecidableEq, Inhabited

/-- The text of an operand. -/
def Operand.text : Operand → String
  | .constant value => toString value
  | .symbol name => name

/-- What a line of a program says. -/
inductive Statement where
  /-- The name stands for the address of the next instruction. -/
  | label (name : String)
  | load (operand : Operand)
  | compute (instruction : Instruction)
deriving Repr, DecidableEq, Inhabited

/-- The text of a statement. -/
def Statement.text : Statement → String
  | .label name => "(" ++ name ++ ")"
  | .load operand => "@" ++ operand.text
  | .compute instruction => instruction.text

/-- A line of a program. -/
inductive Line where
  | comment (text : String)
  | statement (s : Statement)
deriving Repr, DecidableEq, Inhabited

/-- The text of a line. -/
def Line.text : Line → String
  | .comment text => "// " ++ text
  | .statement s => s.text

/-- The text of a file with the given lines. -/
def linesText (lines : List Line) : String := lines.foldl (fun out l => out ++ l.text ++ "\n") ""

/-! ### ROM files -/

/-- The binary digits of a word, the highest first. -/
def binaryDigits (w : Word) : List Char :=
  (List.range 16).map fun i => if w.getMsbD i then '1' else '0'

/-- The text of a ROM file. -/
def romText (words : Array Word) : String :=
  words.foldl (fun out w => out ++ String.ofList (binaryDigits w) ++ "\n") ""

end JackToolchain.Hack
