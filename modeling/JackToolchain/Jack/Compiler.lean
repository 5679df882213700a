import JackToolchain.Log
import JackToolchain.Jack.Generator
import JackToolchain.Jack.Markup
import JackToolchain.Jack.Parser

/-!
# Compiling a source

A source is compiled to one of three outputs: commands of the virtual machine, its tree as XML, or
the list of its tokens as XML.  Each output needs some of the stages only, and only their errors can
arise: the tree does not resolve names, and the tokens need not form a class.  There is either an
output or an error, never part of an output.
-/

namespace JackToolchain.Jack

/-- What a source is compiled to. -/
inductive OutputMode where
  | vm | tree | tokens
deriving Repr, DecidableEq, Inhabited

/-- A compilation with the records it makes on its way. -/
structure Compilation where
  records : List Log.Record
  output : Except CompileError String

namespace Compilation

/-- Where the records of the code generator come from. -/
def generatorTarget : String := "jack_compiler::compile::codegen"

/-- The record of a command, if it begins a subroutine. -/
def recordOf? : VM.Command → Option Log.Record
  | .function name locals =>
    some (Log.debug generatorTarget ("compiling subroutine " ++ name ++ " with " ++ locals.decimal
      ++ " locals"))
  | _ => none

/-- Lists the tokens. -/
def ofTokens (source : String) : Compilation :=
  match tokenize source with
  | .error e => ⟨[], .error (.lexical e)⟩
  | .ok tokens =>
    ⟨[Log.debug "jack_compiler" (toString tokens.length ++ " tokens")], .ok (tokenListing tokens)⟩

/-- Writes the tree. -/
def ofTree (source : String) : Compilation :=
  match parseUnit source with
  | .error e => ⟨[], .error (.ofSyntax e)⟩
  | .ok c => ⟨[], .ok c.markup.render⟩

/-- Generates commands. -/
def ofCommands (source : String) : Compilation :=
  match parseUnit source with
  | .error e => ⟨[], .error (.ofSyntax e)⟩
  | .ok c =>
    let (result, g) := (Generator.new .unlimited).compile c
    let commands := g.sink.commands.toList
    ⟨Log.debug generatorTarget ("compiling class " ++ c.name.name) :: commands.filterMap recordOf?,
      result.map fun _ => VM.programText commands⟩

end Compilation

/-- Compiles a source and tells what has been done. -/
def compileWithRecords (mode : OutputMode) (source : String) : Compilation :=
  match mode with
  | .vm => .ofCommands source
  | .tree => .ofTree source
  | .tokens => .ofTokens source

/-- Compiles a source. -/
def compile (mode : OutputMode) (source : String) : Except CompileError String :=
  (compileWithRecords mode source).output

end JackToolchain.Jack
