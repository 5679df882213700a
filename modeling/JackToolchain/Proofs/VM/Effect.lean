import JackToolchain.Proofs.VM.Machine
import JackToolchain.Proofs.VM.StackCode

/-!
# What commands do to memory

The commands that push, pop, compute, begin a function and jump, described without their blocks: the
cell of a segment (`Context.cell?`), what is needed of memory for a command to be carried out
(`Context.Accesses`), what memory holds afterwards (`Context.effect`), and where execution goes on
(`Command.next`).

The description is that of the Hack platform.  The cell `SP` holds the address of the first free
cell of the stack, the four cells behind it hold the bases of segments, and a command that pops into
a segment with a base leaves the address of the cell in `R13`.
-/

namespace JackToolchain.VM

open Hack

/-- The result of an operation on one word. -/
def unaryResult (x : Word) : ArithOp → Option Word
  | .neg => some (-x)
  | .not => some (~~~x)
  | _ => none

/-- The result of an operation on two words, the second of which is on top.  Words are compared by
the sign of their difference. -/
def binaryResult (x y : Word) : ArithOp → Option Word
  | .add => some (x + y)
  | .sub => some (x - y)
  | .and => some (x &&& y)
  | .or => some (x ||| y)
  | .eq => some (if x - y = 0 then -1 else 0)
  | .gt => some (if 0 < (x - y).toInt then -1 else 0)
  | .lt => some (if (x - y).toInt < 0 then -1 else 0)
  | .neg | .not => none

namespace Context

variable (c : Context) (address : String → Word)

/-- The cell of a segment, if it has cells. -/
def cell? (m : Memory) (segment : Segment) (index : Word) : Option Word :=
  match segment with
  | .constant => none
  | .locals => some (m 1 + index)
  | .argument => some (m 2 + index)
  | .this => some (m 3 + index)
  | .that => some (m 4 + index)
  | .pointer => some (3 + index)
  | .temp => some (5 + index)
  | .statics => some (address (c.unit ++ "." ++ index.decimal))

/-- Whether popping into a segment computes an address. -/
def isIndirect : Segment → Bool
  | .locals | .argument | .this | .that => true
  | _ => false

/-- The cells of the stack that a command touches may be used for it, and there is the cell of the
segment. -/
def Accesses (m : Memory) : Command → Prop
  | .push segment index =>
    InStack (m 0) ∧ ∀ a ∈ c.cell? address m segment index, a.toNat < memorySize
  | .pop segment index =>
    InStack (m 0 - 1) ∧ ∀ a ∈ c.cell? address m segment index, a.toNat < memorySize
  | .arith .neg | .arith .not | .ifGoto _ => InStack (m 0 - 1)
  | .arith _ => InStack (m 0 - 1) ∧ InStack (m 0 - 2)
  | .function _ locals => ∀ k < locals.toNat, InStack (m 0 + BitVec.ofNat 16 k)
  | _ => True

/-- What memory holds behind a command. -/
def effect (m : Memory) : Command → Memory
  | .push segment index =>
    let value := match c.cell? address m segment index with
      | none => index
      | some a => m a
    Function.update (Function.update m (m 0) value) 0 (m 0 + 1)
  | .pop segment index =>
    match c.cell? address m segment index with
    | none => m
    | some a =>
      let m' := if isIndirect segment then Function.update m 13 a else m
      Function.update (Function.update m' 0 (m 0 - 1)) a (m (m 0 - 1))
  | .arith op =>
    match unaryResult (m (m 0 - 1)) op, binaryResult (m (m 0 - 2)) (m (m 0 - 1)) op with
    | some z, _ => Function.update m (m 0 - 1) z
    | _, some z => Function.update (Function.update m 0 (m 0 - 1)) (m 0 - 2) z
    | none, none => m
  | .function _ locals => fun a =>
    if a = 0 then m 0 + locals
    else if ∃ k < locals.toNat, a = m 0 + BitVec.ofNat 16 k then 0
    else m a
  | .ifGoto _ => Function.update m 0 (m 0 - 1)
  | _ => m

/-- The jump that is taken if a comparison holds of the difference. -/
def comparison? : ArithOp → Option Jump
  | .eq => some .eq
  | .gt => some .gt
  | .lt => some .lt
  | _ => none

theorem effect_comparison {m : Memory} {op : ArithOp} {j : Jump} (h : comparison? op = some j) :
    c.effect address m (.arith op) =
      Function.update (Function.update m 0 (m 0 - 1)) (m 0 - 2)
        (if j.Holds (m (m 0 - 2) - m (m 0 - 1)) then -1 else 0) := by
  cases op <;> cases h <;> simp only [effect, unaryResult, binaryResult, Jump.Holds]

end Context

/-- The place where execution goes on behind a command, when `stop` is the place behind its block
and `target` that of the label it names. -/
def Command.next (m : Memory) (stop target : Nat) : Command → Nat
  | .goto _ => target
  | .ifGoto _ => if m (m 0 - 1) ≠ 0 then target else stop
  | _ => stop

end JackToolchain.VM
