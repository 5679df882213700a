import Mathlib.Data.Finset.Card
import Mathlib.Data.Finset.Dedup
import Mathlib.Data.List.ReduceOption
import JackToolchain.Proofs.Hack.Tiling

/-!
# What an assembly source means

This is the assembly language without tokens, symbol tables and passes.  A source is divided into
lines; a line without its comment says nothing, declares a label, loads, or computes (`LineSays`),
with blanks wherever there is no part of a name or number on both sides.  A symbol then has one
address in a program, no matter where it is used (`addressOf`): that of the platform if it is
predefined, the number of instructions in front of its declaration if it is a label, and otherwise a
cell of its own, behind those of the symbols used earlier.
-/

namespace JackToolchain.Hack

/-! ### Lines of a source -/

/-- The lines of a source.  A line feed, a carriage return, or the latter before the former ends a
line. -/
def physicalLines : List Char → List (List Char)
  | [] => [[]]
  | '\r' :: '\n' :: cs => [] :: physicalLines cs
  | c :: cs =>
    if isNewline c then [] :: physicalLines cs else (physicalLines cs).modifyHead (c :: ·)

/-- The part of a line in front of the first `//`. -/
def uncommented : List Char → List Char
  | [] => []
  | '/' :: '/' :: _ => []
  | c :: cs => c :: uncommented cs

/-- One digit or more. -/
def IsNumber (text : List Char) : Prop := text ≠ [] ∧ ∀ c ∈ text, c.isDigit = true

instance (text : List Char) : Decidable (IsNumber text) :=
  inferInstanceAs (Decidable (text ≠ [] ∧ ∀ c ∈ text, c.isDigit = true))

/-- The statement that a line without its comment makes, if it is right. -/
inductive LineSays : List Char → Option Statement → Prop where
  | nothing {code : List Char} : Blanks code → LineSays code none
  | label {u v w x : List Char} {name : String} : Blanks u → Blanks v → Blanks w → Blanks x →
      IsSymbol name →
      LineSays (u ++ '(' :: (v ++ (name.toList ++ (w ++ ')' :: x)))) (some (.label name))
  | symbol {u v w : List Char} {name : String} : Blanks u → Blanks v → Blanks w → IsSymbol name →
      LineSays (u ++ '@' :: (v ++ (name.toList ++ w))) (some (.load (.symbol name)))
  | constant {u v w digits : List Char} : Blanks u → Blanks v → Blanks w → IsNumber digits →
      Nat.ofDigitChars 10 digits 0 ≤ maxConstant →
      LineSays (u ++ '@' :: (v ++ (digits ++ w)))
      (some (.load (.constant (Nat.ofDigitChars 10 digits 0))))
  /-- The characters that are not blank spell `[dest=]comp[;jump]`. -/
  | compute {code : List Char} {i : Instruction} : code.filter (fun c => !isBlank c) =
      i.text.toList → LineSays code (some (.compute i))

/-- The lines of a program that a source consists of. -/
def Reads (source : String) (lines : List Line) : Prop :=
  ∃ contents : List (Option Statement),
    List.Forall₂ (fun line => LineSays (uncommented line)) (physicalLines source.toList) contents ∧
      lines = contents.reduceOption.map .statement

/-! ### Symbols of a program -/

/-- The labels that a program declares. -/
def labelsOf (lines : List Line) : List String := lines.filterMap Line.label?

/-- The symbol that a line loads, if it loads one. -/
def Line.symbol? : Line → Option String
  | .statement (.load (.symbol name)) => some name
  | _ => none

/-- The uses of symbols that are neither predefined nor labels, in order. -/
def variableUses (lines : List Line) : List String :=
  (lines.filterMap Line.symbol?).filter fun name => name ∉ predefinedNames ∧ name ∉ labelsOf lines

/-- The number of instructions in front of the declaration of a label. -/
def labelIndex (lines : List Line) (name : String) : Nat :=
  wordCount (lines.takeWhile (· ≠ .statement (.label name)))

/-- The number of variables that are used before a variable is used for the first time. -/
def variableIndex (lines : List Line) (name : String) : Nat :=
  ((variableUses lines).takeWhile (· ≠ name)).toFinset.card

/-- The address of a symbol in a program.  Addresses are words. -/
def addressOf (lines : List Line) (name : String) : Word :=
  match predefinedSymbols.lookup name with
  | some address => address
  | none =>
    if name ∈ labelsOf lines then BitVec.ofNat 16 (labelIndex lines name)
    else variableStart + BitVec.ofNat 16 (variableIndex lines name)

/-- The labels of a program are distinct and new. -/
structure LabelsFit (lines : List Line) : Prop where
  distinct : (labelsOf lines).Nodup
  new : ∀ name ∈ labelsOf lines, name ∉ predefinedNames

end JackToolchain.Hack
