import JackToolchain.Log
import JackToolchain.Hack.Assembly
import JackToolchain.Hack.Platform
import JackToolchain.VM.Program

/-!
# Lowering commands to assembly

Each command of the virtual machine becomes a *block* of assembly lines.  The stack grows upwards
from its start, and the cell `SP` holds the address of its first free cell; the cells `LCL`, `ARG`,
`THIS` and `THAT` hold the bases of the segments of the current function.  The cells `R13` and `R14`
are used inside a block.

What a block looks like depends on its `Context`: the unit, which names static variables; the
function, which scopes labels; and two counters, which number the labels that blocks need for
themselves.  The counters are never set back, so units that are translated together do not get each
other's labels.

A `Translator` collects the blocks of units.  A unit is read as a whole before its first command is
translated, so a unit that is not well formed leaves no trace.  A command that is well formed may
still ask for a cell that is not there; it has no block then, and the commands behind it in its unit
are not translated.
-/

namespace JackToolchain.VM

open Hack (Line Dest Comp Jump)

/-! ### Lines -/

namespace Block

/-- Stores to `A`. -/
def toA : Dest := { a := true }

/-- Stores to `D`. -/
def toD : Dest := { d := true }

/-- Stores to the cell that `A` points to. -/
def toM : Dest := { m := true }

/-- Stores to that cell and to `A`. -/
def toAM : Dest := { a := true, m := true }

/-- Loads the address of a symbol. -/
def load (symbol : String) : Line := .statement (.load (.symbol symbol))

/-- Loads a constant. -/
def loadConstant (n : Nat) : Line := .statement (.load (.constant n))

/-- Computes and stores. -/
def set (dest : Dest) (comp : Comp) : Line := .statement (.compute { dest, comp })

/-- Jumps by the sign of what is computed. -/
def jump (comp : Comp) (jump : Jump) : Line := .statement (.compute { comp, jump := some jump })

/-- Declares a label. -/
def label (name : String) : Line := .statement (.label name)

/-! ### Sequences -/

/-- Jumps to a symbol. -/
def goto (symbol : String) : List Line := [load symbol, jump .zero .always]

/-- Pushes `D`. -/
def pushD : List Line := [load "SP", set toA .m, set toM .d, load "SP", set toM .mPlusOne]

/-- Pops a word and points `A` to the cell where it was. -/
def popCell : List Line := [load "SP", set toAM .mMinusOne]

/-- Pops a word into `D`. -/
def popD : List Line := popCell ++ [set toD .m]

/-- Pushes what a symbol's cell holds. -/
def pushCell (symbol : String) : List Line := [load symbol, set toD .m] ++ pushD

/-- Copies the contents of one symbol's cell to another's. -/
def copy (source target : String) : List Line := [load source, set toD .m, load target, set toM .d]

/-- Pushes a zero. -/
def pushZero : List Line := [load "SP", set toA .m, set toM .zero, load "SP", set toM .mPlusOne]

end Block

/-! ### Contexts -/

/-- What the blocks of a program depend on. -/
structure Context where
  /-- The unit that commands belong to. -/
  unit : String := ""
  /-- The function that commands belong to, or nothing before the first. -/
  function : String := ""
  /-- How many comparisons there have been. -/
  compares : Nat := 0
  /-- How many calls there have been. -/
  calls : Nat := 0
deriving Repr, DecidableEq, Inhabited

namespace Context

/-- The assembly name of a label of the program. -/
def scopedLabel (c : Context) (label : String) : String :=
  if c.function.isEmpty then label else c.function ++ "$" ++ label

/-- Where a comparison goes if it holds. -/
def trueLabel (c : Context) : String := c.unit ++ "$CMP_TRUE_" ++ toString c.compares

/-- Where a comparison ends. -/
def endLabel (c : Context) : String := c.unit ++ "$CMP_END_" ++ toString c.compares

/-- Where a call returns to. -/
def returnLabel (c : Context) : String :=
  (if c.function.isEmpty then "Bootstrap" else c.function) ++ "$ret." ++ toString c.calls

/-- The context of the commands behind a command. -/
def after (c : Context) : Command → Context
  | .arith .eq | .arith .gt | .arith .lt => { c with compares := c.compares + 1 }
  | .function name _ => { c with function := name }
  | .call _ _ => { c with calls := c.calls + 1 }
  | _ => c

/-! ### Memory access -/

/-- Where the cell of a segment is found. -/
inductive Access where
  /-- There is no cell: the index is the value. -/
  | immediate
  /-- The index is added to the base that the symbol's cell holds. -/
  | indirect (base : String)
  /-- The cell has a symbol. -/
  | direct (symbol : String)
deriving Repr, DecidableEq

/-- How the cell of a segment is accessed, if there is such a cell. -/
def access (c : Context) (segment : Segment) (index : Word) : Except Fault Access :=
  match segment with
  | .constant => .ok .immediate
  | .locals => .ok (.indirect "LCL")
  | .argument => .ok (.indirect "ARG")
  | .this => .ok (.indirect "THIS")
  | .that => .ok (.indirect "THAT")
  | .statics => .ok (.direct (c.unit ++ "." ++ index.decimal))
  | .temp =>
    if index.toNat < Hack.tempSize
      then .ok (.direct ("R" ++ toString (Hack.tempBase + index.toNat)))
    else .error (.indexOutOfRange segment index)
  | .pointer =>
    if index.toNat < Hack.pointerSize then .ok (.direct (if index = 0 then "THIS" else "THAT"))
    else .error (.indexOutOfRange segment index)

open Block

/-- The block that pushes a cell of a segment. -/
def pushBlock (c : Context) (segment : Segment) (index : Word) : Except Fault (List Line) :=
  match c.access segment index with
  | .error fault => .error fault
  | .ok .immediate => .ok ([loadConstant index.toNat, set toD .a] ++ pushD)
  | .ok (.indirect base) =>
    .ok ([load base, set toD .m, loadConstant index.toNat, set toA .dPlusA, set toD .m] ++ pushD)
  | .ok (.direct symbol) => .ok (pushCell symbol)

/-- The block that pops into a cell of a segment.  An address that has to be computed is computed
before the word is popped, which takes up `D`. -/
def popBlock (c : Context) (segment : Segment) (index : Word) : Except Fault (List Line) :=
  match c.access segment index with
  | .error fault => .error fault
  | .ok .immediate => .error (.popIntoConstant index)
  | .ok (.indirect base) =>
    .ok ([load base, set toD .m, loadConstant index.toNat, set toD .dPlusA, load "R13", set toM .d]
      ++ popD ++ [load "R13", set toA .m, set toM .d])
  | .ok (.direct symbol) => .ok (popD ++ [load symbol, set toM .d])

section
variable {c : Context} {segment : Segment} {index : Word} {block : List Line}

/-- A block that pushes depends on the access alone. -/
theorem access_of_pushBlock (h : c.pushBlock segment index = .ok block) :
    ∃ access, c.access segment index = .ok access ∧ match access with
      | .immediate => block = [loadConstant index.toNat, set toD .a] ++ pushD
      | .indirect base =>
        block = [load base, set toD .m, loadConstant index.toNat, set toA .dPlusA,
          set toD .m] ++ pushD
      | .direct symbol => block = pushCell symbol := by
  unfold pushBlock at h
  cases haccess : c.access segment index with
  | error fault =>
    rw [haccess] at h
    cases h
  | ok access =>
    rw [haccess] at h
    refine ⟨access, rfl, ?_⟩
    cases access <;> exact (Except.ok.inj h).symm

/-- So does a block that pops, and there has to be a cell. -/
theorem access_of_popBlock (h : c.popBlock segment index = .ok block) :
    ∃ access, c.access segment index = .ok access ∧ match access with
      | .immediate => False
      | .indirect base =>
        block = [load base, set toD .m, loadConstant index.toNat, set toD .dPlusA,
          load "R13", set toM .d] ++ popD ++ [load "R13", set toA .m, set toM .d]
      | .direct symbol => block = popD ++ [load symbol, set toM .d] := by
  unfold popBlock at h
  cases haccess : c.access segment index with
  | error fault =>
    rw [haccess] at h
    cases h
  | ok access =>
    rw [haccess] at h
    refine ⟨access, rfl, ?_⟩
    cases access with
    | immediate => cases h
    | indirect base | direct symbol => exact (Except.ok.inj h).symm

end

/-! ### Arithmetic -/

/-- The block that replaces the word on top. -/
def unaryBlock (comp : Comp) : List Line := [load "SP", set toA .mMinusOne, set toM comp]

/-- The block that replaces the two words on top.  The upper one is in `D` and the lower one in
`M`. -/
def binaryBlock (comp : Comp) : List Line := popD ++ [set toA .aMinusOne, set toM comp]

/-- The block that compares the two words on top by the sign of their difference. -/
def compareBlock (c : Context) (j : Jump) : List Line :=
  popD ++ popCell
    ++ [set toD .mMinusD, load c.trueLabel, jump .d j, set toD .zero] ++ goto c.endLabel
    ++ [label c.trueLabel, set toD .minusOne, label c.endLabel] ++ pushD

/-- The block of an operation. -/
def arithBlock (c : Context) : ArithOp → List Line
  | .neg => unaryBlock .negM
  | .not => unaryBlock .notM
  | .add => binaryBlock .dPlusM
  | .sub => binaryBlock .mMinusD
  | .and => binaryBlock .dAndM
  | .or => binaryBlock .dOrM
  | .eq => c.compareBlock .eq
  | .gt => c.compareBlock .gt
  | .lt => c.compareBlock .lt

/-! ### Functions -/

/-- The block that begins a function: its label, and a zero for each local variable. -/
def functionBlock (name : String) (locals : Word) : List Line :=
  label name :: (List.replicate locals.toNat pushZero).flatten

/-- The block of a call.  It saves the place to return to and the segments of the caller, makes the
arguments and the free part of the stack the segments of the function called, and goes there. -/
def callBlock (c : Context) (name : String) (args : Word) : List Line :=
  [load c.returnLabel, set toD .a] ++ pushD
    ++ ["LCL", "ARG", "THIS", "THAT"].flatMap pushCell
    ++ [load "SP", set toD .m, loadConstant (5 + args.toNat), set toD .dMinusA,
    load "ARG", set toM .d] ++ copy "SP" "LCL"
    ++ goto name ++ [label c.returnLabel]

/-- The lines that restore a segment of the caller, the saved cells being passed from the last to
the first. -/
def restore (segment : String) : List Line :=
  [load "R13", set toAM .mMinusOne, set toD .m, load segment, set toM .d]

/-- The block that returns from a function.  The place to return to is read before the result is
stored: where there are no arguments, the result takes its cell. -/
def returnBlock : List Line :=
  copy "LCL" "R13"
    ++ [loadConstant 5, set toA .dMinusA, set toD .m, load "R14", set toM .d]
    ++ popD ++ [load "ARG", set toA .m, set toM .d]
    ++ [load "ARG", set toD .mPlusOne, load "SP", set toM .d]
    ++ ["THAT", "THIS", "ARG", "LCL"].flatMap restore
    ++ [load "R14", set toA .m, jump .zero .always]

/-- The block of a command, if it has one. -/
def block (c : Context) : Command → Except Fault (List Line)
  | .push segment index => c.pushBlock segment index
  | .pop segment index => c.popBlock segment index
  | .arith op => .ok (c.arithBlock op)
  | .label name => .ok [Block.label (c.scopedLabel name)]
  | .goto name => .ok (Block.goto (c.scopedLabel name))
  | .ifGoto name => .ok (popD ++ [load (c.scopedLabel name), jump .d .ne])
  | .function name locals => .ok (functionBlock name locals)
  | .call name args => .ok (c.callBlock name args)
  | .ret => .ok returnBlock

end Context

/-! ### Translators -/

/-- What a program consists of besides the blocks of its commands. -/
structure Settings where
  /-- Whether the program sets up the stack and calls `Sys.init` first. -/
  bootstrap : Bool := false
  /-- Whether each block has its command before it as a comment. -/
  comments : Bool := false
  /-- Whether the program ends in an endless loop. -/
  endLoop : Bool := true
deriving Repr, DecidableEq, Inhabited

/-- The function that the bootstrap calls. -/
def entryPoint : String := "Sys.init"

/-- A program in the making. -/
structure Translator where
  settings : Settings := {}
  /-- The lines so far, in order. -/
  lines : Array Line := #[]
  context : Context := {}
deriving Repr

namespace Translator

open Block

/-- A program that has its bootstrap, if it is to have one. -/
def new (settings : Settings) : Translator :=
  if settings.bootstrap then
    let context : Context := {}
    let setup :=
      (if settings.comments then [.comment "bootstrap"] else [])
        ++ [loadConstant Hack.stackStart, set toD .a, load "SP", set toM .d]
        ++ context.callBlock entryPoint 0
    ⟨settings, setup.toArray, context.after (.call entryPoint 0)⟩
  else
    { settings }

/-- Begins a unit. -/
def beginUnit (t : Translator) (unit : String) : Translator :=
  { t with context := { t.context with unit } }

/-- Translates a command.  If it has no block, only its comment is written. -/
def write : Translator → Command → Except Fault Unit × Translator
  | ⟨settings, lines, context⟩, command =>
    let lines := if settings.comments then lines.push (.comment command.text) else lines
    match context.block command with
    | .ok block => (.ok (), ⟨settings, lines.appendList block, context.after command⟩)
    | .error fault => (.error fault, ⟨settings, lines, context⟩)

/-- Translates commands up to the first that has no block. -/
def writeAll (t : Translator) : List SourceLine → Except Error Unit × Translator
  | [] => (.ok (), t)
  | l :: rest =>
    match t.write l.command with
    | (.ok (), t) => writeAll t rest
    | (.error fault, t) => (.error ⟨some l.line, fault⟩, t)

/-- Reads and translates a unit. -/
def translateUnit (t : Translator) (unit source : String) : Except Error Unit × Translator :=
  match readProgram source with
  | .error e => (.error e, t)
  | .ok program => (t.beginUnit unit).writeAll program

/-- The record that translating a unit makes. -/
def unitRecord (unit : String) : Log.Record :=
  Log.debug "hack::vm::translate" ("translating unit " ++ unit)

/-- The lines that end a program. -/
def ending (settings : Settings) : List Line :=
  if settings.endLoop then label "END" :: goto "END" else []

/-- The assembly text of a finished program. -/
def finish (t : Translator) : String := Hack.linesText (t.lines.toList ++ ending t.settings)

end Translator

/-- Translates a program that is a single unit. -/
def translate (unit source : String) (settings : Settings) : Except Error String :=
  match (Translator.new settings).translateUnit unit source with
  | (.ok (), t) => .ok t.finish
  | (.error e, _) => .error e

end JackToolchain.VM
