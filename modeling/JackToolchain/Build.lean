import JackToolchain.Hack.Assembler
import JackToolchain.Jack.Compiler
import JackToolchain.Text.Encodings
import JackToolchain.VM.Translator

/-!
# Building programs

A program is built from units: each is compiled to commands, and the commands of all units are
translated into one assembly text.  Whatever stage cannot go on, its error is a `BuildError`.
-/

namespace JackToolchain

/-- Why a stage cannot go on. -/
inductive BuildError where
  | jack (error : Jack.CompileError)
  | vm (error : VM.Error)
  | assembly (error : Hack.AsmError)
  /-- The bytes of a source are no text. -/
  | encoding (error : Text.Utf8.Error)

/-- The wording of an error.  An error of the compiler names its stage itself. -/
def BuildError.message : BuildError → String
  | .jack e => e.message
  | .vm e => "vm error: " ++ e.message
  | .assembly e => "assembly error: " ++ e.message
  | .encoding e => "source is not valid utf-8: " ++ e.message

namespace Build

/-- The text that the bytes of a source encode. -/
def decode (bytes : List UInt8) : Except BuildError String :=
  (Text.Utf8.decode bytes).mapError .encoding

/-- Compiles a unit and adds its commands, whose text is the result, to a program. -/
def addUnit (t : VM.Translator) (unit source : String) : Except BuildError String × VM.Translator :=
  match Jack.compile .vm source with
  | .error e => (.error (.jack e), t)
  | .ok commands =>
    match t.translateUnit unit commands with
    | (.ok (), t) => (.ok commands, t)
    | (.error e, t) => (.error (.vm e), t)

/-- Adds units in order, up to the first that cannot be added. -/
def addUnits (t : VM.Translator) : List (String × String) → Except BuildError VM.Translator
  | [] => .ok t
  | (unit, source) :: units =>
    match addUnit t unit source with
    | (.ok _, t) => addUnits t units
    | (.error e, _) => .error e

end Build

end JackToolchain
