import JackToolchain.Word

/-!
# Compute instructions

A compute instruction of the Hack computer says what to compute, where to store the result, and when
to jump.  Each of the three parts has a mnemonic and a bit pattern, and the instruction is the text,
or the word, that is put together from them: `dest=comp;jump`, or `111` and the thirteen bits.
-/

namespace JackToolchain.Hack

/-! ### Computations -/

/-- What can be computed from the registers `D` and `A` and the memory cell `M` that `A` points
to. -/
inductive Comp where
  | zero | one | minusOne | d | a | m
  | notD | notA | notM | negD | negA | negM
  | dPlusOne | aPlusOne | mPlusOne | dMinusOne | aMinusOne | mMinusOne
  | dPlusA | dPlusM | dMinusA | dMinusM | aMinusD | mMinusD
  | dAndA | dAndM | dOrA | dOrM
deriving Repr, DecidableEq, Inhabited

namespace Comp

/-- The mnemonic of a computation. -/
def text : Comp → String
  | zero => "0"
  | one => "1"
  | minusOne => "-1"
  | d => "D"
  | a => "A"
  | m => "M"
  | notD => "!D"
  | notA => "!A"
  | notM => "!M"
  | negD => "-D"
  | negA => "-A"
  | negM => "-M"
  | dPlusOne => "D+1"
  | aPlusOne => "A+1"
  | mPlusOne => "M+1"
  | dMinusOne => "D-1"
  | aMinusOne => "A-1"
  | mMinusOne => "M-1"
  | dPlusA => "D+A"
  | dPlusM => "D+M"
  | dMinusA => "D-A"
  | dMinusM => "D-M"
  | aMinusD => "A-D"
  | mMinusD => "M-D"
  | dAndA => "D&A"
  | dAndM => "D&M"
  | dOrA => "D|A"
  | dOrM => "D|M"

/-- The bit that selects `M` in the place of `A`, and the six control bits of the arithmetic
unit. -/
def bits : Comp → BitVec 7
  | zero => 0b0101010
  | one => 0b0111111
  | minusOne => 0b0111010
  | d => 0b0001100
  | a => 0b0110000
  | m => 0b1110000
  | notD => 0b0001101
  | notA => 0b0110001
  | notM => 0b1110001
  | negD => 0b0001111
  | negA => 0b0110011
  | negM => 0b1110011
  | dPlusOne => 0b0011111
  | aPlusOne => 0b0110111
  | mPlusOne => 0b1110111
  | dMinusOne => 0b0001110
  | aMinusOne => 0b0110010
  | mMinusOne => 0b1110010
  | dPlusA => 0b0000010
  | dPlusM => 0b1000010
  | dMinusA => 0b0010011
  | dMinusM => 0b1010011
  | aMinusD => 0b0000111
  | mMinusD => 0b1000111
  | dAndA => 0b0000000
  | dAndM => 0b1000000
  | dOrA => 0b0010101
  | dOrM => 0b1010101

/-- Every computation once. -/
def all : List Comp :=
  [zero, one, minusOne, d, a, m, notD, notA, notM, negD, negA, negM, dPlusOne, aPlusOne,
    mPlusOne, dMinusOne, aMinusOne, mMinusOne, dPlusA, dPlusM, dMinusA, dMinusM, aMinusD, mMinusD,
    dAndA, dAndM, dOrA, dOrM]

/-- The computation of a mnemonic. -/
def ofText? (text : String) : Option Comp := all.find? fun c => c.text == text

theorem ofText?_text (c : Comp) : ofText? c.text = some c := by
  cases c <;> decide

theorem text_eq_of_ofText? {t : String} {c : Comp} (h : ofText? t = some c) : c.text = t := by
  simpa using List.find?_some h

end Comp

/-! ### Destinations -/

/-- Where a result is stored. -/
structure Dest where
  a : Bool := false
  d : Bool := false
  m : Bool := false
deriving Repr, DecidableEq, Inhabited

namespace Dest

/-- The mnemonic of a destination, which is empty if nothing is stored. -/
def text (x : Dest) : String :=
  (if x.a then "A" else "") ++ (if x.m then "M" else "") ++ (if x.d then "D" else "")

/-- One bit for each place. -/
def bits (x : Dest) : BitVec 3 := BitVec.ofBool x.a ++ BitVec.ofBool x.d ++ BitVec.ofBool x.m

/-- The destinations that store something. -/
def all : List Dest :=
  [⟨false, false, true⟩, ⟨false, true, false⟩, ⟨false, true, true⟩, ⟨true, false, false⟩,
    ⟨true, false, true⟩, ⟨true, true, false⟩, ⟨true, true, true⟩]

/-- The destination of a mnemonic. -/
def ofText? (text : String) : Option Dest := all.find? fun x => x.text == text

theorem ofText?_text {x : Dest} (h : x ∈ all) : ofText? x.text = some x := by
  revert x
  decide

theorem text_eq_of_ofText? {t : String} {x : Dest} (h : ofText? t = some x) : x.text = t := by
  simpa using List.find?_some h

end Dest

/-! ### Jumps -/

/-- When to jump, by the sign of the result. -/
inductive Jump where
  | gt | eq | ge | lt | ne | le | always
deriving Repr, DecidableEq, Inhabited

namespace Jump

/-- The mnemonic of a jump. -/
def text : Jump → String
  | gt => "JGT"
  | eq => "JEQ"
  | ge => "JGE"
  | lt => "JLT"
  | ne => "JNE"
  | le => "JLE"
  | always => "JMP"

/-- One bit for each of negative, zero and positive. -/
def bits : Jump → BitVec 3
  | gt => 0b001
  | eq => 0b010
  | ge => 0b011
  | lt => 0b100
  | ne => 0b101
  | le => 0b110
  | always => 0b111

/-- Every jump once. -/
def all : List Jump := [gt, eq, ge, lt, ne, le, always]

/-- The jump of a mnemonic. -/
def ofText? (text : String) : Option Jump := all.find? fun j => j.text == text

theorem ofText?_text (j : Jump) : ofText? j.text = some j := by
  cases j <;> decide

theorem text_eq_of_ofText? {t : String} {j : Jump} (h : ofText? t = some j) : j.text = t := by
  simpa using List.find?_some h

end Jump

/-! ### Instructions -/

/-- A compute instruction. -/
structure Instruction where
  dest : Dest := {}
  comp : Comp
  jump : Option Jump := none
deriving Repr, DecidableEq, Inhabited

namespace Instruction

/-- The text of an instruction.  A part that does nothing is left out. -/
def text (i : Instruction) : String :=
  (if i.dest.text.isEmpty then "" else i.dest.text ++ "=") ++ i.comp.text
    ++ (match i.jump with
      | none => ""
      | some j => ";" ++ j.text)

/-- The word of an instruction. -/
def encode (i : Instruction) : Word :=
  0b111#3 ++ i.comp.bits ++ i.dest.bits ++ (i.jump.map Jump.bits).getD 0

end Instruction

end JackToolchain.Hack
