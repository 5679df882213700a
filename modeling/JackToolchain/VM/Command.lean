import JackToolchain.Word

/-!
# Commands of the virtual machine

The virtual machine is a stack machine with eight memory segments.  Its commands push and pop words,
compute with the top of the stack, jump to labels, and call functions.  Each command has a one-line
text, which is what `.vm` files are made of.
-/

namespace JackToolchain.VM

/-- The memory segments, addressed by an index from zero. -/
inductive Segment where
  | constant | argument | locals | statics | this | that | pointer | temp
deriving Repr, DecidableEq, Inhabited

namespace Segment

/-- The name of a segment. -/
def name : Segment → String
  | constant => "constant"
  | argument => "argument"
  | locals => "local"
  | statics => "static"
  | this => "this"
  | that => "that"
  | pointer => "pointer"
  | temp => "temp"

/-- Every segment once. -/
def all : List Segment := [constant, argument, locals, statics, this, that, pointer, temp]

/-- The segment of a name. -/
def ofName? (name : String) : Option Segment := all.find? fun s => s.name == name

theorem ofName?_name (s : Segment) : ofName? s.name = some s := by
  cases s <;> decide

end Segment

/-- Operations on the top of the stack. -/
inductive ArithOp where
  | add | sub | neg | eq | gt | lt | and | or | not
deriving Repr, DecidableEq, Inhabited

namespace ArithOp

/-- The name of an operation. -/
def name : ArithOp → String
  | add => "add"
  | sub => "sub"
  | neg => "neg"
  | eq => "eq"
  | gt => "gt"
  | lt => "lt"
  | and => "and"
  | or => "or"
  | not => "not"

/-- Every operation once. -/
def all : List ArithOp := [add, sub, neg, eq, gt, lt, and, or, not]

/-- The operation of a name. -/
def ofName? (name : String) : Option ArithOp := all.find? fun op => op.name == name

end ArithOp

/-- A command of the virtual machine. -/
inductive Command where
  | push (segment : Segment) (index : Word)
  | pop (segment : Segment) (index : Word)
  | arith (op : ArithOp)
  | label (name : String)
  | goto (name : String)
  /-- A jump that is taken when the word popped is not zero. -/
  | ifGoto (name : String)
  /-- The beginning of a function with a number of local variables. -/
  | function (name : String) (locals : Word)
  /-- A call with a number of arguments on the stack. -/
  | call (name : String) (args : Word)
  | ret
deriving Repr, DecidableEq, Inhabited

namespace Command

/-- The text of a command. -/
def text : Command → String
  | push segment index => "push " ++ segment.name ++ " " ++ index.decimal
  | pop segment index => "pop " ++ segment.name ++ " " ++ index.decimal
  | arith op => op.name
  | label name => "label " ++ name
  | goto name => "goto " ++ name
  | ifGoto name => "if-goto " ++ name
  | function name locals => "function " ++ name ++ " " ++ locals.decimal
  | call name args => "call " ++ name ++ " " ++ args.decimal
  | ret => "return"

/-- The line of a command in a `.vm` file. -/
def line (c : Command) : String := c.text ++ "\n"

end Command

/-- The text of a `.vm` file with the given commands. -/
def programText (commands : List Command) : String :=
  commands.foldl (fun out c => out ++ c.line) ""

end JackToolchain.VM
