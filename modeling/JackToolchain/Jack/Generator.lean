import JackToolchain.Text.Encodings
import JackToolchain.Jack.CompileError
import JackToolchain.Jack.Sink
import JackToolchain.Jack.SymbolTable
import JackToolchain.Jack.Tree

/-!
# Generating commands

A `Generator` turns classes into commands of the virtual machine, in one pass over the tree.  Names
are resolved where they are used: declarations fill the symbol table, and a variable is a segment
and an index from then on.  Expressions leave one word on the stack; operands apply from left to
right.

* A string constant is built at run time, unit by unit.
* `let a[i] = e` computes the address before `e`, which may itself move the `that` segment.
* A call without receiver is a method call on the current object.  A call on a variable is a method
  call on the object it holds, in the class that its declaration names.  Any other receiver is a
  class.
* Conditions are complemented, so a jump leaves the body when they fail; the labels of a statement
  share one number, which no other statement of the run has.

Generation stops at the first error and keeps what has been written, defined and numbered up to
there.  A generator goes on with its symbols and numbers from one class to the next.
-/

namespace JackToolchain.Jack

/-- The state of code generation. -/
structure Generator where
  sink : Sink
  symbols : SymbolTable := {}
  /-- The class that is being compiled. -/
  className : String := ""
  /-- How many labels have been numbered. -/
  labels : Nat := 0

/-- Steps of code generation. -/
abbrev Generation : Type → Type := EStateM CompileError Generator

namespace Generation

/-! ### Single steps -/

/-- Writes a command. -/
def emit (c : VM.Command) : Generation Unit
  | ⟨sink, symbols, className, labels⟩ =>
    if sink.hasRoomFor c then .ok () ⟨sink.write c, symbols, className, labels⟩
    else .error .sinkFull ⟨sink.write c, symbols, className, labels⟩

/-- A number for the labels of a statement. -/
def freshLabel : Generation Nat
  | ⟨sink, symbols, className, labels⟩ => .ok labels ⟨sink, symbols, className, labels + 1⟩

/-- Defines a variable, which is declared at the given place. -/
def define (name type : String) (kind : VarKind) (span : Span) : Generation Unit
  | ⟨sink, symbols, className, labels⟩ =>
    match symbols.define name type kind with
    | (some _, symbols) => .ok () ⟨sink, symbols, className, labels⟩
    | (none, symbols) => .error (.tooMany .variablesOfKind span) ⟨sink, symbols, className, labels⟩

/-- Begins a subroutine, which has no variables yet. -/
def resetSymbols : Generation Unit
  | ⟨sink, symbols, className, labels⟩ => .ok () ⟨sink, symbols.reset, className, labels⟩

/-- The variable that an occurrence of a name stands for, if there is one. -/
def lookup (name : Ident) : Generation (Option Variable) := return (← get).symbols.lookup name.name

/-- The variable that an occurrence of a name stands for, which there has to be. -/
def resolve (name : Ident) (use : Use) : Generation Variable := do
  match ← lookup name with
  | some v => return v
  | none => throw (.undefined name.name name.span use)

/-- The name of a subroutine of the class that is being compiled. -/
def qualified (name : Ident) : Generation String := return (← get).className ++ "." ++ name.name

/-- A count as an operand. -/
def counted (n : Nat) (quota : Quota) (span : Span) : Generation Word :=
  match Word.ofNat? n with
  | some w => pure w
  | none => throw (.tooMany quota span)

/-! ### Short sequences -/

/-- Pushes a constant. -/
def pushConstant (w : Word) : Generation Unit := emit (.push .constant w)

/-- Pushes the value of a variable. -/
def pushVariable (v : Variable) : Generation Unit := emit (.push v.kind.segment v.index)

/-- Appends the units of a string constant, one call for each. -/
def appendUnits : List Word → Generation Unit
  | [] => pure ()
  | unit :: rest => do
    pushConstant unit
    emit (.call "String.appendChar" 2)
    appendUnits rest

/-- Builds a string constant and leaves it on the stack. -/
def stringConstant (contents : String) (span : Span) : Generation Unit := do
  let units := Text.units contents
  pushConstant (← counted units.length .stringUnits span)
  emit (.call "String.new" 1)
  appendUnits units

/-- Pushes the value of a literal. -/
def literal : Literal → Generation Unit
  | .int value _ => pushConstant (BitVec.ofNat 16 value)
  | .string contents span => stringConstant contents span
  | .true => do
    pushConstant 0
    emit (.arith .not)
  | .false | .null => pushConstant 0
  | .this => emit (.push .pointer 0)

/-- The command of an operator.  Products and quotients are calls. -/
def binaryCommand : BinaryOp → VM.Command
  | .add => .arith .add
  | .sub => .arith .sub
  | .mul => .call "Math.multiply" 2
  | .div => .call "Math.divide" 2
  | .and => .arith .and
  | .or => .arith .or
  | .lt => .arith .lt
  | .gt => .arith .gt
  | .eq => .arith .eq

/-- The command of an operator. -/
def unaryCommand : UnaryOp → VM.Command
  | .neg => .arith .neg
  | .not => .arith .not

/-- Pushes the object that a call is directed to, if there is one.  The results are the full name of
the subroutine and the number of words pushed. -/
def receiver (receiver : Option Ident) (name : Ident) : Generation (String × Nat) := do
  match receiver with
  | none =>
    emit (.push .pointer 0)
    return (← qualified name, 1)
  | some object =>
    match ← lookup object with
    | some v =>
      pushVariable v
      return (v.type ++ "." ++ name.name, 1)
    | none => return (object.name ++ "." ++ name.name, 0)

end Generation

open Generation

/-! ### Expressions -/

mutual

/-- Pushes the value of a term. -/
def Term.generate : Term → Generation Unit
  | .literal value => Generation.literal value
  | .var name => do pushVariable (← resolve name .inExpression)
  | .element array subscript => do
    pushVariable (← resolve array .inElement)
    subscript.generate
    emit (.arith .add)
    emit (.pop .pointer 1)
    emit (.push .that 0)
  | .call call => call.generate
  | .paren inner => inner.generate
  | .unary op operand => do
    operand.generate
    emit (unaryCommand op)

/-- Pushes the value of an expression. -/
def Expr.generate : Expr → Generation Unit
  | .mk head tail => do
    head.generate
    generateOperands tail

/-- Applies operands to the word on top of the stack, from left to right. -/
def generateOperands : List Operand → Generation Unit
  | [] => pure ()
  | .mk op term :: rest => do
    term.generate
    emit (binaryCommand op)
    generateOperands rest

/-- Calls a subroutine, whose result is left on the stack. -/
def Call.generate : Call → Generation Unit
  | .mk object name paren args => do
    let (target, pushed) ← receiver object name
    generateArgs args
    emit (.call target (← counted (pushed + args.length) .arguments paren))

/-- Pushes the values of arguments. -/
def generateArgs : List Expr → Generation Unit
  | [] => pure ()
  | arg :: rest => do
    arg.generate
    generateArgs rest

end

/-! ### Statements -/

/-- The label behind an `if` statement. -/
def ifEnd (n : Nat) : String := "IF_END_" ++ toString n

/-- The label of the alternative of an `if` statement. -/
def ifElse (n : Nat) : String := "IF_ELSE_" ++ toString n

/-- The label before the condition of a `while` statement. -/
def whileStart (n : Nat) : String := "WHILE_EXP_" ++ toString n

/-- The label behind a `while` statement. -/
def whileEnd (n : Nat) : String := "WHILE_END_" ++ toString n

mutual

/-- Generates a statement. -/
def Statement.generate : Statement → Generation Unit
  | .assign target value => do
    let v ← resolve target .inAssignment
    value.generate
    emit (.pop v.kind.segment v.index)
  | .assignElement array subscript value => do
    pushVariable (← resolve array .inAssignment)
    subscript.generate
    emit (.arith .add)
    value.generate
    emit (.pop .temp 0)
    emit (.pop .pointer 1)
    emit (.push .temp 0)
    emit (.pop .that 0)
  | .ifThen condition body => do
    let n ← freshLabel
    condition.generate
    emit (.arith .not)
    emit (.ifGoto (ifEnd n))
    generateStatements body
    emit (.label (ifEnd n))
  | .ifElse condition body alternative => do
    let n ← freshLabel
    condition.generate
    emit (.arith .not)
    emit (.ifGoto (ifElse n))
    generateStatements body
    emit (.goto (ifEnd n))
    emit (.label (ifElse n))
    generateStatements alternative
    emit (.label (ifEnd n))
  | .while condition body => do
    let n ← freshLabel
    emit (.label (whileStart n))
    condition.generate
    emit (.arith .not)
    emit (.ifGoto (whileEnd n))
    generateStatements body
    emit (.goto (whileStart n))
    emit (.label (whileEnd n))
  | .do call => do
    call.generate
    emit (.pop .temp 0)
  | .return (some value) => do
    value.generate
    emit .ret
  | .return none => do
    pushConstant 0
    emit .ret

/-- Generates one statement after the other. -/
def generateStatements : List Statement → Generation Unit
  | [] => pure ()
  | s :: rest => do
    s.generate
    generateStatements rest

end

/-! ### Declarations -/

namespace Generation

/-- Defines variables of one type and kind. -/
def defineAll (type : String) (kind : VarKind) : List Ident → Generation Unit
  | [] => pure ()
  | x :: rest => do
    define x.name type kind x.span
    defineAll type kind rest

/-- Defines parameters. -/
def defineParameters : List Parameter → Generation Unit
  | [] => pure ()
  | p :: rest => do
    define p.name.name p.type.name .argument p.name.span
    defineParameters rest

/-- Defines local variables. -/
def defineLocals : List VarDec → Generation Unit
  | [] => pure ()
  | d :: rest => do
    defineAll d.type.name .local d.names
    defineLocals rest

/-- The kind of variable that a class declares. -/
def classVarKind : ClassVarKind → VarKind
  | .static => .static
  | .field => .field

/-- Defines the variables of a class. -/
def defineClassVars : List ClassVarDec → Generation Unit
  | [] => pure ()
  | d :: rest => do
    defineAll d.type.name (classVarKind d.kind) d.names
    defineClassVars rest

/-- How many variables of a kind there are, as an operand. -/
def countOf (kind : VarKind) : Generation Word :=
  return BitVec.ofNat 16 ((← get).symbols.count kind)

/-- The commands with which a subroutine obtains its object.  A constructor allocates one word for
each field; a method is handed its object as its first argument. -/
def objectSetup : SubroutineKind → Generation Unit
  | .function => pure ()
  | .constructor => do
    pushConstant (← countOf .field)
    emit (.call "Memory.alloc" 1)
    emit (.pop .pointer 0)
  | .method => do
    emit (.push .argument 0)
    emit (.pop .pointer 0)

end Generation

/-- Defines the variables of a subroutine. -/
def Subroutine.declare (s : Subroutine) : Generation Unit := do
  resetSymbols
  if s.kind = .method then
    define "this" (← get).className .argument s.name.span
  defineParameters s.parameters
  defineLocals s.locals

/-- Generates a subroutine. -/
def Subroutine.generate (s : Subroutine) : Generation Unit := do
  s.declare
  emit (.function (← qualified s.name) (← countOf .local))
  objectSetup s.kind
  generateStatements s.body

/-- Generates one subroutine after the other. -/
def generateSubroutines : List Subroutine → Generation Unit
  | [] => pure ()
  | s :: rest => do
    s.generate
    generateSubroutines rest

/-- Generates a class. -/
def Class.generate (c : Class) : Generation Unit := do
  modify fun g => { g with className := c.name.name }
  defineClassVars c.classVars
  generateSubroutines c.subroutines

namespace Generator

/-- A generator that knows nothing yet. -/
def new (sink : Sink) : Generator := { sink }

/-- Compiles a class.  The generator is kept whether that succeeds or not. -/
def compile (g : Generator) (c : Class) : Except CompileError Unit × Generator :=
  match c.generate.run g with
  | .ok () g => (.ok (), g)
  | .error e g => (.error e, g)

end Generator

end JackToolchain.Jack
