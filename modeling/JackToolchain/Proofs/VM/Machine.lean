import Mathlib.Logic.Relation
import JackToolchain.Hack.Platform
import JackToolchain.VM.Command

/-!
# The virtual machine

This module says what the commands of a function do.  A `Machine` is the state of a function that
runs: the stack of its operands and the memory that its commands reach.  A command is executed by
`step`, which has no result where the machine cannot go on; a `return` is such a place, since what
happens then is the caller's affair.  Jumps go to the label of that name in the code of the
function.

A call is a single step.  An `Environment` answers it from the name, the arguments, the statics and
the memory by a result and new statics and memory; the segments of the caller are as before.  Only
the base of `that` and the cells of `temp`, which nobody saves, may have changed in any way.

`Store` is the part of the machine that outlives a statement of the source: the variables, the
memory and the current object.
-/

namespace JackToolchain

/-- The word that stands for a truth value: all bits are the same. -/
def Word.ofTruth (b : Bool) : Word := if b then -1 else 0

namespace VM

/-- What the segments hold that variables live in, and the memory that objects and arrays live
in. -/
structure Store where
  arguments : Word → Word
  locals : Word → Word
  statics : Word → Word
  memory : Word → Word
  /-- The base of the segment `this`, which is the address of the current object. -/
  thisBase : Word

/-- The state of a function that runs. -/
structure Machine extends Store where
  /-- The operands, the topmost first. -/
  stack : List Word
  /-- The base of the segment `that`. -/
  thatBase : Word
  temp : Word → Word

/-- What a call gives back. -/
structure Answer where
  result : Word
  statics : Word → Word
  memory : Word → Word

/-- What is outside a function: how calls are answered, and what they leave in the cells that nobody
saves. -/
structure Environment where
  answer : (name : String) → (args : List Word) → (statics memory : Word → Word) → Answer
  thatBase : String → Machine → Word
  temp : String → Machine → Word → Word

/-! ### Memory access -/

/-- A function that differs at one argument. -/
def update (f : Word → Word) (i v : Word) : Word → Word := fun j => if j = i then v else f j

namespace Machine

/-- What the cell of a segment holds, if there is such a cell.  A constant is its own value. -/
def read (m : Machine) (segment : Segment) (index : Word) : Option Word :=
  match segment with
  | .constant => some index
  | .argument => some (m.arguments index)
  | .locals => some (m.locals index)
  | .statics => some (m.statics index)
  | .this => some (m.memory (m.thisBase + index))
  | .that => some (m.memory (m.thatBase + index))
  | .pointer => if index = 0 then some m.thisBase else if index = 1 then some m.thatBase else none
  | .temp => if index.toNat < Hack.tempSize then some (m.temp index) else none

/-- The machine behind a store to the cell of a segment, if there is such a cell. -/
def write (m : Machine) (segment : Segment) (index v : Word) : Option Machine :=
  match segment with
  | .constant => none
  | .argument => some { m with arguments := update m.arguments index v }
  | .locals => some { m with locals := update m.locals index v }
  | .statics => some { m with statics := update m.statics index v }
  | .this => some { m with memory := update m.memory (m.thisBase + index) v }
  | .that => some { m with memory := update m.memory (m.thatBase + index) v }
  | .pointer =>
    if index = 0 then some { m with thisBase := v }
    else if index = 1 then some { m with thatBase := v } else none
  | .temp =>
    if index.toNat < Hack.tempSize then some { m with temp := update m.temp index v } else none

/-- The machine with one more operand. -/
def push (m : Machine) (v : Word) : Machine := { m with stack := v :: m.stack }

/-- The machine behind a call of the named function with a number of arguments. -/
def call (m : Machine) (env : Environment) (name : String) (args : Nat) : Machine :=
  let answer := env.answer name (m.stack.take args).reverse m.statics m.memory
  { m with
    statics := answer.statics
    memory := answer.memory
    stack := answer.result :: m.stack.drop args
    thatBase := env.thatBase name m
    temp := env.temp name m }

end Machine

/-- What an operation makes of the operands, the topmost first.  The comparisons are those of signed
numbers. -/
def ArithOp.apply : ArithOp → List Word → Option (List Word)
  | neg, x :: rest => some (-x :: rest)
  | not, x :: rest => some (~~~x :: rest)
  | add, y :: x :: rest => some ((x + y) :: rest)
  | sub, y :: x :: rest => some ((x - y) :: rest)
  | and, y :: x :: rest => some ((x &&& y) :: rest)
  | or, y :: x :: rest => some ((x ||| y) :: rest)
  | eq, y :: x :: rest => some (Word.ofTruth (x == y) :: rest)
  | gt, y :: x :: rest => some (Word.ofTruth (y.slt x) :: rest)
  | lt, y :: x :: rest => some (Word.ofTruth (x.slt y) :: rest)
  | _, _ => none

/-! ### Steps -/

/-- A machine at a command of its function. -/
structure Config where
  /-- The place of the command in the code of the function. -/
  place : Nat
  machine : Machine

/-- The place of a label in the code of a function. -/
def labelPlace (code : List Command) (name : String) : Option Nat := code.idxOf? (.label name)

/-- Executes a command that stands at the given place. -/
def execute (env : Environment) (code : List Command) (place : Nat) (m : Machine) :
    Command → Option Config
  | .push segment index => (m.read segment index).map fun v => ⟨place + 1, m.push v⟩
  | .pop segment index =>
    match m.stack with
    | [] => none
    | v :: rest => ({ m with stack := rest }.write segment index v).map fun m => ⟨place + 1, m⟩
  | .arith op => (op.apply m.stack).map fun stack => ⟨place + 1, { m with stack }⟩
  | .label _ => some ⟨place + 1, m⟩
  | .goto name => (labelPlace code name).map fun target => ⟨target, m⟩
  | .ifGoto name =>
    match m.stack with
    | [] => none
    | v :: rest =>
      if v = 0 then some ⟨place + 1, { m with stack := rest }⟩
      else (labelPlace code name).map fun target => ⟨target, { m with stack := rest }⟩
  | .call name args =>
    if args.toNat ≤ m.stack.length then some ⟨place + 1, m.call env name args.toNat⟩ else none
  | .function _ _ => none
  | .ret => none

/-- One step of a function with the given code. -/
def step (env : Environment) (code : List Command) (c : Config) : Option Config :=
  code[c.place]?.bind (execute env code c.place c.machine)

/-- Some number of steps lead from one configuration to the other. -/
def Reaches (env : Environment) (code : List Command) : Config → Config → Prop :=
  Relation.ReflTransGen fun c d => step env code c = some d

section
variable {env : Environment} {code : List Command} {c d e : Config} {place : Nat} {m : Machine}

theorem Reaches.refl (c : Config) : Reaches env code c c := Relation.ReflTransGen.refl

theorem Reaches.trans (h : Reaches env code c d) (h' : Reaches env code d e) :
    Reaches env code c e :=
  Relation.ReflTransGen.trans h h'

/-- A command that can be executed is a step. -/
theorem Reaches.single {command : Command} (hc : code[place]? = some command)
    (h : execute env code place m command = some d) : Reaches env code ⟨place, m⟩ d := by
  refine Relation.ReflTransGen.single ?_
  show (code[place]?.bind _) = some d
  rw [hc]
  exact h

end

/-! ### Labels -/

/-- The labels that commands declare, in order. -/
def declaredLabels (commands : List Command) : List String :=
  commands.filterMap fun
    | .label name => some name
    | _ => none

theorem declaredLabels_append (xs ys : List Command) :
    declaredLabels (xs ++ ys) = declaredLabels xs ++ declaredLabels ys := List.filterMap_append

theorem mem_declaredLabels {commands : List Command} {name : String} :
    name ∈ declaredLabels commands ↔ .label name ∈ commands := by
  unfold declaredLabels
  rw [List.mem_filterMap]
  constructor
  · rintro ⟨c, hc, hname⟩
    cases c with
    | label name' =>
      cases hname
      exact hc
    | push | pop | arith | goto | ifGoto | function | call | ret => cases hname
  · exact fun h => ⟨_, h, rfl⟩

/-- The label that a command may jump to. -/
def Command.target? : Command → Option String
  | .goto name | .ifGoto name => some name
  | _ => none

/-- The labels that commands jump to, in order. -/
def jumpTargets (commands : List Command) : List String := commands.filterMap Command.target?

theorem jumpTargets_append (xs ys : List Command) :
    jumpTargets (xs ++ ys) = jumpTargets xs ++ jumpTargets ys :=
  List.filterMap_append

/-- Where no label is declared twice, a label is found where it is declared. -/
theorem labelPlace_eq_some {code : List Command} {name : String} {place : Nat}
    (hd : (declaredLabels code).Nodup) (h : code[place]? = some (.label name)) :
    labelPlace code name = some place := by
  induction code generalizing place with
  | nil => cases h
  | cons c rest ih =>
    unfold labelPlace at ih ⊢
    rw [List.idxOf?_cons]
    cases place with
    | zero =>
      rw [List.getElem?_cons_zero, Option.some.injEq] at h
      rw [h, if_pos (beq_self_eq_true _)]
    | succ place =>
      rw [List.getElem?_cons_succ] at h
      have hne : c ≠ .label name := by
        rintro rfl
        refine (List.nodup_cons.mp hd).1 (List.mem_filterMap.mpr ⟨_, List.mem_of_getElem? h, rfl⟩)
      have hrest : (declaredLabels rest).Nodup := by
        refine hd.sublist ?_
        exact (List.sublist_cons_self c rest).filterMap _
      rw [if_neg (by simpa using hne), ih hrest h]
      rfl

end VM
end JackToolchain
