import JackToolchain.Proofs.Jack.Declarations
import JackToolchain.Proofs.VM.Machine

/-!
# What statements mean

The meaning of a Jack program is said here along its tree, without commands, stacks and jumps.  An
expression has a value in a store and may change the store, since calls do (`Expr.eval`); a name
that stands for no variable has no value.  Operands apply from left to right, and whatever is
written first is evaluated first.

Statements run until one of them returns, or through to the end (`Runs`).  A condition holds if all
bits of its value are set.

Calls are answered by the environment of the virtual machine, products and quotients and the
construction of strings being calls of the library.
-/

namespace JackToolchain.Jack

open VM (Store Environment)

/-! ### Stores -/

/-- What a variable holds. -/
def Variable.value (v : Variable) (σ : Store) : Word :=
  match v.kind with
  | .static => σ.statics v.index
  | .field => σ.memory (σ.thisBase + v.index)
  | .argument => σ.arguments v.index
  | .local => σ.locals v.index

/-- The store in which a variable holds another word. -/
def Variable.assign (v : Variable) (w : Word) (σ : Store) : Store :=
  match v.kind with
  | .static => { σ with statics := VM.update σ.statics v.index w }
  | .field => { σ with memory := VM.update σ.memory (σ.thisBase + v.index) w }
  | .argument => { σ with arguments := VM.update σ.arguments v.index w }
  | .local => { σ with locals := VM.update σ.locals v.index w }

/-- The store in which a word of the memory is another one. -/
def storeElement (address w : Word) (σ : Store) : Store :=
  { σ with memory := VM.update σ.memory address w }

/-- The result of a call, and the store behind it. -/
def callLibrary (env : Environment) (name : String) (args : List Word) (σ : Store) : Word × Store :=
  let answer := env.answer name args σ.statics σ.memory
  (answer.result, { σ with statics := answer.statics, memory := answer.memory })

/-! ### Expressions -/

/-- Appends units to a string, one call for each. -/
def appendEach (env : Environment) (object : Word) : List Word → Store → Word × Store
  | [], σ => (object, σ)
  | unit :: rest, σ =>
    let (object, σ) := callLibrary env "String.appendChar" [object, unit] σ
    appendEach env object rest σ

/-- The value of a literal. -/
def Literal.eval (env : Environment) (σ : Store) : Literal → Word × Store
  | .int value _ => (BitVec.ofNat 16 value, σ)
  | .string contents _ =>
    let units := Text.units contents
    let (object, σ) := callLibrary env "String.new" [BitVec.ofNat 16 units.length] σ
    appendEach env object units σ
  | .true => (-1, σ)
  | .false | .null => (0, σ)
  | .this => (σ.thisBase, σ)

/-- Applies an operator to two values. -/
def BinaryOp.eval (env : Environment) (op : BinaryOp) (x y : Word) (σ : Store) : Word × Store :=
  match op with
  | .add => (x + y, σ)
  | .sub => (x - y, σ)
  | .mul => callLibrary env "Math.multiply" [x, y] σ
  | .div => callLibrary env "Math.divide" [x, y] σ
  | .and => (x &&& y, σ)
  | .or => (x ||| y, σ)
  | .lt => (Word.ofTruth (x.slt y), σ)
  | .gt => (Word.ofTruth (y.slt x), σ)
  | .eq => (Word.ofTruth (x == y), σ)

/-- Applies an operator to a value. -/
def UnaryOp.eval : UnaryOp → Word → Word
  | .neg, x => -x
  | .not, x => ~~~x

/-- Whom a call is for: the full name of the subroutine, and the object that it is handed, if any.
Without a receiver it is a method of the current object.  On a variable it is a method of the object
that the variable holds, in the class that its declaration names.  Any other receiver is a class. -/
def Naming.callee (names : Naming) (receiver : Option Ident) (name : Ident) (σ : Store) :
    String × List Word :=
  match receiver with
  | none => (names.className ++ "." ++ name.name, [σ.thisBase])
  | some x =>
    match names.lookup x.name with
    | some v => (v.type ++ "." ++ name.name, [v.value σ])
    | none => (x.name ++ "." ++ name.name, [])

mutual

/-- The value of a term, and the store behind it. -/
def Term.eval (env : Environment) (names : Naming) : Term → Store → Option (Word × Store)
  | .literal value, σ => some (value.eval env σ)
  | .var x, σ => do
    let v ← names.lookup x.name
    return (v.value σ, σ)
  | .element array subscript, σ => do
    let v ← names.lookup array.name
    let (i, σ') ← subscript.eval env names σ
    return (σ'.memory (v.value σ + i), σ')
  | .call call, σ => call.eval env names σ
  | .paren inner, σ => inner.eval env names σ
  | .unary op operand, σ => do
    let (x, σ) ← operand.eval env names σ
    return (op.eval x, σ)

/-- The value of an expression, and the store behind it. -/
def Expr.eval (env : Environment) (names : Naming) : Expr → Store → Option (Word × Store)
  | .mk head tail, σ => do
    let (x, σ) ← head.eval env names σ
    evalOperands env names x tail σ

/-- The value that operands make of a value, from left to right, and the store behind it. -/
def evalOperands (env : Environment) (names : Naming) (x : Word) :
    List Operand → Store → Option (Word × Store)
  | [], σ => some (x, σ)
  | .mk op term :: rest, σ => do
    let (y, σ) ← term.eval env names σ
    let (z, σ) := op.eval env x y σ
    evalOperands env names z rest σ

/-- The result of a call, and the store behind it.  The object is evaluated before the arguments. -/
def Call.eval (env : Environment) (names : Naming) : Call → Store → Option (Word × Store)
  | .mk receiver name _ args, σ => do
    let (target, object) := names.callee receiver name σ
    let (values, σ) ← evalArgs env names args σ
    return callLibrary env target (object ++ values) σ

/-- The values of arguments, and the store behind them. -/
def evalArgs (env : Environment) (names : Naming) : List Expr → Store → Option (List Word × Store)
  | [], σ => some ([], σ)
  | arg :: rest, σ => do
    let (x, σ) ← arg.eval env names σ
    let (xs, σ) ← evalArgs env names rest σ
    return (x :: xs, σ)

end

/-! ### Statements -/

/-- How statements end. -/
inductive Outcome where
  /-- They ran through. -/
  | through (σ : Store)
  /-- One of them returned a value. -/
  | returned (value : Word) (σ : Store)

/-- What can be run. -/
inductive Runnable where
  | one (s : Statement)
  | all (body : List Statement)

/-- When a condition holds. -/
def holds (x : Word) : Prop := x = BitVec.allOnes 16

instance : DecidablePred holds := fun x => inferInstanceAs (Decidable (x = BitVec.allOnes 16))

/-- Running statements in a store ends in an outcome. -/
inductive Runs (env : Environment) (names : Naming) : Runnable → Store → Outcome → Prop where
  | done {σ : Store} : Runs env names (.all []) σ (.through σ)
  | next {s : Statement} {rest : List Statement} {σ σ₁ : Store} {o : Outcome}
      (first : Runs env names (.one s) σ (.through σ₁)) (others : Runs env names (.all rest) σ₁ o) :
      Runs env names (.all (s :: rest)) σ o
  | stop {s : Statement} {rest : List Statement} {σ σ₁ : Store} {v : Word}
      (first : Runs env names (.one s) σ (.returned v σ₁)) :
      Runs env names (.all (s :: rest)) σ (.returned v σ₁)
  | assign {x : Ident} {value : Expr} {σ σ₁ : Store} {v : Variable} {w : Word}
      (target : names.lookup x.name = some v) (eval : value.eval env names σ = some (w, σ₁)) :
      Runs env names (.one (.assign x value)) σ (.through (v.assign w σ₁))
  /-- The array and the subscript are evaluated before the value. -/
  | assignElement {array : Ident} {subscript value : Expr} {σ σ₁ σ₂ : Store} {v : Variable}
      {i w : Word} (target : names.lookup array.name = some v)
      (index : subscript.eval env names σ = some (i, σ₁))
      (eval : value.eval env names σ₁ = some (w, σ₂)) :
      Runs env names (.one (.assignElement array subscript value)) σ
        (.through (storeElement (v.value σ + i) w σ₂))
  | ifHolds {condition : Expr} {body : List Statement} {σ σ₁ : Store} {x : Word} {o : Outcome}
      (eval : condition.eval env names σ = some (x, σ₁)) (test : holds x)
      (block : Runs env names (.all body) σ₁ o) :
      Runs env names (.one (.ifThen condition body)) σ o
  | ifFails {condition : Expr} {body : List Statement} {σ σ₁ : Store} {x : Word}
      (eval : condition.eval env names σ = some (x, σ₁)) (test : ¬ holds x) :
      Runs env names (.one (.ifThen condition body)) σ (.through σ₁)
  | thenBlock {condition : Expr} {body alternative : List Statement} {σ σ₁ : Store} {x : Word}
      {o : Outcome} (eval : condition.eval env names σ = some (x, σ₁)) (test : holds x)
      (block : Runs env names (.all body) σ₁ o) :
      Runs env names (.one (.ifElse condition body alternative)) σ o
  | elseBlock {condition : Expr} {body alternative : List Statement} {σ σ₁ : Store} {x : Word}
      {o : Outcome} (eval : condition.eval env names σ = some (x, σ₁)) (test : ¬ holds x)
      (block : Runs env names (.all alternative) σ₁ o) :
      Runs env names (.one (.ifElse condition body alternative)) σ o
  | whileFails {condition : Expr} {body : List Statement} {σ σ₁ : Store} {x : Word}
      (eval : condition.eval env names σ = some (x, σ₁)) (test : ¬ holds x) :
      Runs env names (.one (.while condition body)) σ (.through σ₁)
  | whileAgain {condition : Expr} {body : List Statement} {σ σ₁ σ₂ : Store} {x : Word} {o : Outcome}
      (eval : condition.eval env names σ = some (x, σ₁)) (test : holds x)
      (block : Runs env names (.all body) σ₁ (.through σ₂))
      (again : Runs env names (.one (.while condition body)) σ₂ o) :
      Runs env names (.one (.while condition body)) σ o
  | whileReturns {condition : Expr} {body : List Statement} {σ σ₁ σ₂ : Store} {x v : Word}
      (eval : condition.eval env names σ = some (x, σ₁)) (test : holds x)
      (block : Runs env names (.all body) σ₁ (.returned v σ₂)) :
      Runs env names (.one (.while condition body)) σ (.returned v σ₂)
  | call {call : Call} {σ σ₁ : Store} {x : Word} (eval : call.eval env names σ = some (x, σ₁)) :
      Runs env names (.one (.do call)) σ (.through σ₁)
  | returnValue {value : Expr} {σ σ₁ : Store} {x : Word}
      (eval : value.eval env names σ = some (x, σ₁)) :
      Runs env names (.one (.return (some value))) σ (.returned x σ₁)
  | returnNothing {σ : Store} : Runs env names (.one (.return none)) σ (.returned 0 σ)

/-! ### Subroutines -/

/-- The store in which the body of a subroutine begins.  The current object of a method is its first
argument; a constructor allocates its object, one word for each field. -/
def SubroutineKind.enter (env : Environment) (fields : Nat) (kind : SubroutineKind) (σ : Store) :
    Store :=
  match kind with
  | .function => σ
  | .constructor =>
    let (object, σ) := callLibrary env "Memory.alloc" [BitVec.ofNat 16 fields] σ
    { σ with thisBase := object }
  | .method => { σ with thisBase := σ.arguments 0 }

end JackToolchain.Jack
