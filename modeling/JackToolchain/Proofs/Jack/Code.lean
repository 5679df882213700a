import JackToolchain.Proofs.Jack.Declarations

/-!
# The code of a tree

Generation is a walk with a state.  What it writes can be said without the state: the code of a part
of a tree is a list of commands that depends on how names are understood (`Naming`) and on the
number of labels that have been used up before.  The code is defined here along the tree, and so are
the conditions under which there is one.

For a class, the code is one block for each subroutine, in order (`subroutineCodes`).
-/

namespace JackToolchain.Jack

open VM (Command)

/-! ### Expressions -/

/-- The command that pushes the variable of a name, if there is such a variable. -/
def Naming.pushCode (names : Naming) (x : Ident) : List Command :=
  match names.lookup x.name with
  | some v => [.push v.kind.segment v.index]
  | none => []

/-- The command that pops into the variable of a name, if there is such a variable. -/
def Naming.popCode (names : Naming) (x : Ident) : List Command :=
  match names.lookup x.name with
  | some v => [.pop v.kind.segment v.index]
  | none => []

/-- The commands that append units to a string. -/
def appendCode (units : List Word) : List Command :=
  units.flatMap fun unit => [.push .constant unit, .call "String.appendChar" 2]

/-- The code of a string constant. -/
def stringCode (contents : String) : List Command :=
  [.push .constant (BitVec.ofNat 16 (Text.units contents).length), .call "String.new" 1]
    ++ appendCode (Text.units contents)

/-- The code of a literal. -/
def Literal.code : Literal → List Command
  | .int value _ => [.push .constant (BitVec.ofNat 16 value)]
  | .string contents _ => stringCode contents
  | .true => [.push .constant 0, .arith .not]
  | .false | .null => [.push .constant 0]
  | .this => [.push .pointer 0]

/-- The code that pushes the object of a call, if the call has one. -/
def Naming.receiverCode (names : Naming) : Option Ident → List Command
  | none => [.push .pointer 0]
  | some x => names.pushCode x

/-- How many objects a call has, one or none. -/
def Naming.receiverCount (names : Naming) : Option Ident → Nat
  | none => 1
  | some x => if (names.lookup x.name).isSome then 1 else 0

/-- The full name of the subroutine that a call is for. -/
def Naming.target (names : Naming) (receiver : Option Ident) (name : Ident) : String :=
  match receiver with
  | none => names.className ++ "." ++ name.name
  | some x =>
    match names.lookup x.name with
    | some v => v.type ++ "." ++ name.name
    | none => x.name ++ "." ++ name.name

mutual

/-- The code of a term. -/
def Term.code (names : Naming) : Term → List Command
  | .literal value => value.code
  | .var x => names.pushCode x
  | .element array subscript =>
    names.pushCode array ++ subscript.code names ++ [.arith .add, .pop .pointer 1, .push .that 0]
  | .call call => call.code names
  | .paren inner => inner.code names
  | .unary op operand => operand.code names ++ [Generation.unaryCommand op]

/-- The code of an expression. -/
def Expr.code (names : Naming) : Expr → List Command
  | .mk head tail => head.code names ++ operandsCode names tail

/-- The code that applies operands to the word on top of the stack. -/
def operandsCode (names : Naming) : List Operand → List Command
  | [] => []
  | .mk op term :: rest => term.code names ++ Generation.binaryCommand op :: operandsCode names rest

/-- The code of a call. -/
def Call.code (names : Naming) : Call → List Command
  | .mk receiver name _ args =>
    names.receiverCode receiver ++ argsCode names args
      ++ [.call (names.target receiver name)
        (BitVec.ofNat 16 (names.receiverCount receiver + args.length))]

/-- The code of arguments. -/
def argsCode (names : Naming) : List Expr → List Command
  | [] => []
  | arg :: rest => arg.code names ++ argsCode names rest

end

mutual

/-- Whether a term has code: its variables are declared, and its counts are operands. -/
def Term.Generable (names : Naming) : Term → Prop
  | .literal (.string contents _) => (Text.units contents).length ≤ Word.maxNat
  | .literal _ => True
  | .var x => (names.lookup x.name).isSome
  | .element array subscript => (names.lookup array.name).isSome ∧ subscript.Generable names
  | .call call => call.Generable names
  | .paren inner => inner.Generable names
  | .unary _ operand => operand.Generable names

/-- Whether an expression has code. -/
def Expr.Generable (names : Naming) : Expr → Prop
  | .mk head tail => head.Generable names ∧ OperandsGenerable names tail

/-- Whether operands have code. -/
def OperandsGenerable (names : Naming) : List Operand → Prop
  | [] => True
  | .mk _ term :: rest => term.Generable names ∧ OperandsGenerable names rest

/-- Whether a call has code. -/
def Call.Generable (names : Naming) : Call → Prop
  | .mk receiver _ _ args =>
    ArgsGenerable names args ∧ names.receiverCount receiver + args.length ≤ Word.maxNat

/-- Whether arguments have code. -/
def ArgsGenerable (names : Naming) : List Expr → Prop
  | [] => True
  | arg :: rest => arg.Generable names ∧ ArgsGenerable names rest

end

/-! ### Statements -/

mutual

/-- Whether a statement has code. -/
def Statement.Generable (names : Naming) : Statement → Prop
  | .assign x value => (names.lookup x.name).isSome ∧ value.Generable names
  | .assignElement array subscript value =>
    (names.lookup array.name).isSome ∧ subscript.Generable names ∧ value.Generable names
  | .ifThen condition body | .while condition body =>
    condition.Generable names ∧ AllGenerable names body
  | .ifElse condition body alternative =>
    condition.Generable names ∧ AllGenerable names body ∧ AllGenerable names alternative
  | .do call => call.Generable names
  | .return (some value) => value.Generable names
  | .return none => True

/-- Whether statements have code. -/
def AllGenerable (names : Naming) : List Statement → Prop
  | [] => True
  | s :: rest => s.Generable names ∧ AllGenerable names rest

end

mutual

/-- How many numbers for labels a statement uses up. -/
def Statement.labels : Statement → Nat
  | .assign .. | .assignElement .. | .do _ | .return _ => 0
  | .ifThen _ body | .while _ body => 1 + labelsOf body
  | .ifElse _ body alternative => 1 + labelsOf body + labelsOf alternative

/-- How many numbers for labels statements use up. -/
def labelsOf : List Statement → Nat
  | [] => 0
  | s :: rest => s.labels + labelsOf rest

end

mutual

/-- The code of a statement whose first label has the number `n`. -/
def Statement.code (names : Naming) (n : Nat) : Statement → List Command
  | .assign x value => value.code names ++ names.popCode x
  | .assignElement array subscript value =>
    names.pushCode array ++ subscript.code names ++ [.arith .add] ++ value.code names
      ++ [.pop .temp 0, .pop .pointer 1, .push .temp 0, .pop .that 0]
  | .ifThen condition body =>
    condition.code names ++ [.arith .not, .ifGoto (ifEnd n)] ++ statementsCode names (n + 1) body
      ++ [.label (ifEnd n)]
  | .ifElse condition body alternative =>
    condition.code names ++ [.arith .not, .ifGoto (ifElse n)] ++ statementsCode names (n + 1) body
      ++ [.goto (ifEnd n), .label (ifElse n)]
      ++ statementsCode names (n + (1 + labelsOf body)) alternative ++ [.label (ifEnd n)]
  | .while condition body =>
    [.label (whileStart n)] ++ condition.code names ++ [.arith .not, .ifGoto (whileEnd n)]
      ++ statementsCode names (n + 1) body ++ [.goto (whileStart n), .label (whileEnd n)]
  | .do call => call.code names ++ [.pop .temp 0]
  | .return (some value) => value.code names ++ [.ret]
  | .return none => [.push .constant 0, .ret]

/-- The code of statements, the first label of which has the number `n`. -/
def statementsCode (names : Naming) (n : Nat) : List Statement → List Command
  | [] => []
  | s :: rest => s.code names n ++ statementsCode names (n + s.labels) rest

end

/-! ### Subroutines -/

/-- The code by which a subroutine obtains its object.  The objects of the class have the given
number of fields. -/
def SubroutineKind.setupCode (fields : Nat) : SubroutineKind → List Command
  | .function => []
  | .constructor =>
    [.push .constant (BitVec.ofNat 16 fields), .call "Memory.alloc" 1, .pop .pointer 0]
  | .method => [.push .argument 0, .pop .pointer 0]

/-- The code of a subroutine of a class, the first label of which has the number `n`. -/
def Subroutine.code (s : Subroutine) (c : Class) (outer : Scope) (n : Nat) : List Command :=
  .function (c.name.name ++ "." ++ s.name.name) (BitVec.ofNat 16 s.localCount)
    :: (s.kind.setupCode (c.fieldCount outer) ++ statementsCode (s.naming c outer) n s.body)

/-- The codes of subroutines of a class, one for each, the first label of which has the number
`n`. -/
def subroutineCodes (c : Class) (outer : Scope) (n : Nat) : List Subroutine → List (List Command)
  | [] => []
  | s :: rest => s.code c outer n :: subroutineCodes c outer (n + labelsOf s.body) rest

end JackToolchain.Jack
