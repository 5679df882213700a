import JackToolchain.Hack.Assembler
import JackToolchain.Hack.Assembly
import JackToolchain.Jack.Compiler
import JackToolchain.Text.Encodings
import JackToolchain.VM.Translator
import JackToolchain.Build
import JackToolchain.Cli.Configuration
import JackToolchain.Cli.Host

/-!
# Running a command

A command works on a file, or on the files of a folder that have its extension.  A unit that is in
error is reported, counted and passed over.  Some failures of the surroundings stop the command
instead: they are the causes of `Abort`.

Compiling and assembling write an output for each unit that is in order.  Translating writes one
output for all units, and only if all of them are in order.
-/

namespace JackToolchain.Cli

/-! ### Requests -/

/-- What can be done with files. -/
inductive Command where
  | compile (mode : Jack.OutputMode)
  | translate
  | assemble
deriving Repr, DecidableEq

/-- The command of a name. -/
def Command.ofName? : String → Option Command
  | "compile" => some (.compile .vm)
  | "analyze" => some (.compile .tree)
  | "tokens" => some (.compile .tokens)
  | "translate" => some .translate
  | "asm" => some .assemble
  | _ => none

/-- The extension of the files that a command works on. -/
def Command.extension : Command → String
  | compile _ => "jack"
  | translate => "vm"
  | assemble => "asm"

/-- A command and what it is to work on. -/
structure Request where
  command : Command
  path : Path
deriving Repr, DecidableEq

/-- The request that the words of a command line make.  Words behind it are not looked at. -/
def Request.ofWords? : List String → Option Request
  | command :: path :: _ => (Command.ofName? command).map fun command => ⟨command, .ofText path⟩
  | _ => none

/-- What is shown when there is no request. -/
def usage : String :=
  String.intercalate "\n" [
    "Hack toolchain v0.1.0", "",
    "usage: hack CMD PATH", "",
    "PATH is a single source file or a directory of them.", "",
    "commands:",
    "    compile     Compile .jack files into .vm files",
    "    analyze     Write the parse tree of .jack files as .xml",
    "    tokens      Write the tokens of .jack files as T.xml",
    "    translate   Translate .vm files into one .asm file",
    "    asm         Assemble a .asm file into a .hack file", "",
    "examples:",
    "    hack compile Square/",
    "    hack analyze Square/Main.jack",
    "    hack translate FibonacciElement/",
    "    hack asm Max.asm", ""]

/-! ### Outcomes -/

/-- Why a command stops before its end. -/
inductive Abort where
  | unreadable (path : Path) (reason : String)
  /-- The bytes of a file are no text. -/
  | notText (path : Path)
  | unwritable (path : Path) (reason : String)
  | badConfiguration
deriving Repr, DecidableEq

/-- What is wrong with a file whose bytes are no text. -/
def notTextMessage : String := "stream did not contain valid UTF-8"

/-- The wording of the reason to stop. -/
def Abort.message : Abort → String
  | unreadable path reason => path.text ++ ": " ++ reason
  | notText path => path.text ++ ": " ++ notTextMessage
  | unwritable path reason => path.text ++ ": " ++ reason
  | badConfiguration => Configuration.fileName ++ ": not a configuration"

/-- How running a command ends. -/
inductive Outcome where
  | success
  | usageShown
  | unitsFailed (count : Nat)
  | nothingThere
  | aborted (cause : Abort)
deriving Repr, DecidableEq

/-- The exit code that tells how running a command ended. -/
def Outcome.exitCode : Outcome → UInt8
  | success => 0
  | aborted _ => 1
  | usageShown => 64
  | unitsFailed _ => 65
  | nothingThere => 66

/-! ### Actions -/

/-- Something done in a host that may have to stop. -/
abbrev Action (m : Type → Type) : Type → Type := ExceptT Abort m

section

variable {m : Type → Type} [Monad m] [Host m]

/-- Where the records of the command line come from. -/
def target : String := "hack"

/-- Shows a record if it is important enough.  Without a limit, nothing is. -/
def report (limit : Option Log.Level) (r : Log.Record) : m Unit :=
  if limit.any (r.level.rank ≤ ·.rank) then Host.print r.render else pure ()

/-- Shows the records that are important enough. -/
def reportAll (limit : Option Log.Level) : List Log.Record → m Unit
  | [] => pure ()
  | r :: rs => do
    report limit r
    reportAll limit rs

/-- Reports an error. -/
def reportError (limit : Option Log.Level) (text : String) : m Unit :=
  report limit ⟨.error, target, text⟩

/-- Reports that a unit is in error. -/
def reportFailure (limit : Option Log.Level) (file : Path) (message : String) : m Unit :=
  reportError limit (file.text ++ ": " ++ message)

/-- Reports what is being done with a unit. -/
def reportActivity (limit : Option Log.Level) (activity : String) (file : Path) : m Unit :=
  report limit ⟨.info, target, activity ++ " " ++ file.text⟩

/-- The text of a file. -/
def readText (file : Path) : m (Except Abort String) := do
  match ← Host.read file with
  | .error reason => return .error (.unreadable file reason)
  | .ok bytes =>
    match Text.Utf8.decode bytes with
    | .ok text => return .ok text
    | .error _ => return .error (.notText file)

/-- The text of a file without which there is no going on. -/
def needText (file : Path) : Action m String := ExceptT.mk (readText file)

/-- Writes a text to a file. -/
def writeText (file : Path) (text : String) : Action m Unit := ExceptT.mk do
  match ← Host.write file text.toUTF8.data.toList with
  | .ok () => return .ok ()
  | .error reason => return .error (.unwritable file reason)

/-- Whether there is something that a path names. -/
def isThere (p : Path) : m Bool := do
  if ← Host.isFile p then return true
  Host.isFolder p

/-- Reads the configuration of the working directory, if there is one. -/
def readConfiguration (limit : Option Log.Level) : Action m Configuration := do
  let file := Path.ofText Configuration.fileName
  if ← Host.isFile file then
    match Configuration.ofText? (← needText file) with
    | some c =>
      report limit (Log.debug target ("loaded configuration: " ++ c.text))
      return c
    | none => throw .badConfiguration
  else return {}

/-- The files that a path stands for: itself, or in name order the files directly in it that have an
extension. -/
def sources (p : Path) (extension : String) : Action m (List Path) := do
  if ← Host.isFile p then return [p]
  else
    match ← Host.fileNames p with
    | .ok names =>
      let names := names.filter (Name.hasExtension extension)
      return (names.mergeSort Name.precedes).map p.join
    | .error reason => throw (.unreadable p reason)

/-- Does something with each file and counts how often it says that the file is in error. -/
def countFailures (handle : Path → Action m Bool) : List Path → Action m Nat
  | [] => return 0
  | file :: files => do
    let failed ← handle file
    let rest ← countFailures handle files
    return (if failed then 1 else 0) + rest

/-! ### Compiling -/

/-- Where the output for a unit goes. -/
def compiledPath (mode : Jack.OutputMode) (file : Path) : Path :=
  match mode with
  | .vm => file.withExtension "vm"
  | .tree => file.withExtension "xml"
  | .tokens => file.withName (.ofText (file.unitName ++ "T.xml"))

/-- Compiles a unit and tells whether it is in error. -/
def compileFile (limit : Option Log.Level) (mode : Jack.OutputMode) (file : Path) :
    Action m Bool := do
  reportActivity limit "compiling" file
  match ← readText file with
  | .error (.unreadable _ reason) =>
    reportFailure limit file reason
    return true
  | .error _ =>
    reportFailure limit file notTextMessage
    return true
  | .ok source =>
    let compilation := Jack.compileWithRecords mode source
    reportAll limit compilation.records
    match compilation.output with
    | .error e =>
      reportFailure limit file e.message
      return true
    | .ok output =>
      let out := compiledPath mode file
      writeText out output
      report limit (Log.debug target ("wrote " ++ out.text))
      return false

/-! ### Assembling -/

/-- Assembles a unit and tells whether it is in error. -/
def assembleFile (limit : Option Log.Level) (file : Path) : Action m Bool := do
  reportActivity limit "assembling" file
  let source ← needText file
  let assembling := Hack.assembleWithRecords source
  reportAll limit assembling.records
  match assembling.words with
  | .error e =>
    reportFailure limit file (BuildError.assembly e).message
    return true
  | .ok words =>
    let out := file.withExtension "hack"
    writeText out (Hack.romText words)
    report limit (Log.debug target ("wrote " ++ toString words.size ++ " words to " ++ out.text))
    return false

/-! ### Translating -/

/-- Adds units to a program and counts those that are in error, after `failures` of them. -/
def translateFiles (limit : Option Log.Level) (t : VM.Translator) (failures : Nat) :
    List Path → Action m (VM.Translator × Nat)
  | [] => return (t, failures)
  | file :: files => do
    reportActivity limit "translating" file
    let source ← needText file
    report limit (VM.Translator.unitRecord file.unitName)
    match t.translateUnit file.unitName source with
    | (.ok (), t) => translateFiles limit t failures files
    | (.error e, t) =>
      reportFailure limit file (BuildError.vm e).message
      translateFiles limit t (failures + 1) files

/-- Where the program of a file or a folder goes. -/
def translatedPath (p : Path) (folder : Bool) : Path :=
  if folder then p.join (.ofText (p.unitName ++ ".asm")) else p.withExtension "asm"

/-- Translates what a path stands for, and counts the units that are in error.  The program of a
folder has a bootstrap unless the configuration says otherwise. -/
def translate (limit : Option Log.Level) (c : Configuration) (p : Path) : Action m Nat := do
  let folder ← Host.isFolder p
  let settings := c.translate.getD { bootstrap := folder }
  let files ← sources p Command.translate.extension
  let (t, failures) ← translateFiles limit (.new settings) 0 files
  if failures = 0 then
    let out := translatedPath p folder
    writeText out t.finish
    report limit (Log.debug target ("wrote " ++ out.text))
  return failures

/-! ### Commands -/

/-- Carries out a request and counts the units that are in error. -/
def perform (limit : Option Log.Level) (r : Request) : Action m Nat := do
  let c ← readConfiguration limit
  match r.command with
  | .compile mode => countFailures (compileFile limit mode) (← sources r.path r.command.extension)
  | .assemble => countFailures (assembleFile limit) (← sources r.path r.command.extension)
  | .translate => translate limit c r.path

/-- Runs the command line with these words.  Records are shown up to a limit. -/
def run (limit : Option Log.Level) (words : List String) : m Outcome := do
  match Request.ofWords? words with
  | none =>
    Host.print usage
    return .usageShown
  | some r =>
    if ← isThere r.path then
      match ← (perform limit r).run with
      | .error cause => return .aborted cause
      | .ok 0 => return .success
      | .ok count =>
        reportError limit (toString count ++ " unit(s) failed")
        return .unitsFailed count
    else
      reportError limit ("no such file or directory: " ++ r.path.text)
      return .nothingThere

end

end JackToolchain.Cli
