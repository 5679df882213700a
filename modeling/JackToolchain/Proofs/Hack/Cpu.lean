import Mathlib.Data.BitVec
import Mathlib.Logic.Function.Basic
import Mathlib.Tactic.Ring
import JackToolchain.Hack.Instruction
import JackToolchain.Hack.Platform

/-!
# The processor

The Hack computer runs the words of a program on a memory and the registers `A` and `D`.  A word
whose top bit is clear is loaded into `A`; any other word has fields that say what to compute, where
to store the result, and when to jump to the address in `A`.  The memory has cells for half of the
addresses only, and there is no way to go on from an instruction that reads or writes a cell that is
not there.

The processor is defined by the bits of words.  What an encoded instruction does is what its
mnemonics say (`Cpu.step_compute`), and nothing else need be known of the bits.
-/

namespace JackToolchain.Hack

/-! ### The processor -/

/-- What the cells hold. -/
abbrev Memory : Type := Word → Word

/-- How many cells there are. -/
def memorySize : Nat := 32768

/-- What memory and registers hold. -/
@[ext]
structure Core where
  memory : Memory
  a : Word
  d : Word

/-- A state of the processor. -/
structure Cpu where
  core : Core
  /-- The place of the next instruction in the program. -/
  pc : Nat

/-- The arithmetic unit.  Its control bits clear and negate the first operand, do the same with the
second one, choose addition instead of conjunction, and negate the result. -/
def alu (control : BitVec 6) (x y : Word) : Word :=
  let x := if control[5] then 0 else x
  let x := if control[4] then ~~~x else x
  let y := if control[3] then 0 else y
  let y := if control[2] then ~~~y else y
  let out := if control[1] then x + y else x &&& y
  if control[0] then ~~~out else out

/-- Whether to jump on a result, by the bits for negative, zero and positive. -/
def jumps (bits : BitVec 3) (out : Word) : Bool :=
  bits[2] && out.msb || bits[1] && out == 0 || bits[0] && !out.msb && out != 0

namespace Cpu

/-- Computes, stores and jumps as the fields of a word say. -/
def compute (comp : BitVec 7) (dest jump : BitVec 3) (c : Cpu) : Option Cpu :=
  if (comp[6] || dest[0]) && memorySize ≤ c.core.a.toNat then
    none
  else
    let out := alu (comp.setWidth 6) c.core.d (if comp[6] then c.core.memory c.core.a else c.core.a)
    some
      { core :=
          { memory := if dest[0] then Function.update c.core.memory c.core.a out else c.core.memory
            a := if dest[2] then out else c.core.a
            d := if dest[1] then out else c.core.d }
        pc := if jumps jump out then c.core.a.toNat else c.pc + 1 }

/-- One step of the processor, if there is a word at its place and there are the cells that it
needs. -/
def step (rom : List Word) (c : Cpu) : Option Cpu :=
  match rom[c.pc]? with
  | none => none
  | some w =>
    if w.msb then c.compute (w.extractLsb' 6 7) (w.extractLsb' 3 3) (w.extractLsb' 0 3)
    else some ⟨{ c.core with a := w }, c.pc + 1⟩

/-- A run of the processor in which all instructions that are executed are in a stretch of the
program, which the last state need not be. -/
inductive Runs (rom : List Word) (start stop : Nat) : Cpu → Cpu → Prop
  | refl (c : Cpu) : Runs rom start stop c c
  | step {c c' c'' : Cpu} : start ≤ c.pc → c.pc < stop → c.step rom = some c' →
      Runs rom start stop c' c'' → Runs rom start stop c c''

section
variable {rom : List Word} {start stop start' stop' : Nat} {c c' c'' : Cpu}

theorem Runs.trans (h : Runs rom start stop c c') (h' : Runs rom start stop c' c'') :
    Runs rom start stop c c'' := by
  induction h with
  | refl => exact h'
  | step hstart hstop hstep _ ih => exact .step hstart hstop hstep (ih h')

/-- A run in a part of a stretch. -/
theorem Runs.mono (h : Runs rom start stop c c') (hstart : start' ≤ start) (hstop : stop ≤ stop') :
    Runs rom start' stop' c c' := by
  induction h with
  | refl => exact .refl _
  | step hpc hpc' hstep _ ih => exact .step (by omega) (by omega) hstep ih

end

end Cpu

/-! ### Instructions by their mnemonics -/

/-- What is computed from `D`, `A` and `M`. -/
def Comp.value (d a m : Word) : Comp → Word
  | zero => 0
  | one => 1
  | minusOne => -1
  | .d => d
  | .a => a
  | .m => m
  | notD => ~~~d
  | notA => ~~~a
  | notM => ~~~m
  | negD => -d
  | negA => -a
  | negM => -m
  | dPlusOne => d + 1
  | aPlusOne => a + 1
  | mPlusOne => m + 1
  | dMinusOne => d - 1
  | aMinusOne => a - 1
  | mMinusOne => m - 1
  | dPlusA => d + a
  | dPlusM => d + m
  | dMinusA => d - a
  | dMinusM => d - m
  | aMinusD => a - d
  | mMinusD => m - d
  | dAndA => d &&& a
  | dAndM => d &&& m
  | dOrA => d ||| a
  | dOrM => d ||| m

/-- Whether a computation reads `M`. -/
def Comp.readsM (comp : Comp) : Bool := comp.bits[6]

/-- Whether to jump on a result. -/
def Jump.Holds (out : Word) : Jump → Prop
  | gt => 0 < out.toInt
  | eq => out = 0
  | ge => 0 ≤ out.toInt
  | lt => out.toInt < 0
  | ne => out ≠ 0
  | le => out.toInt ≤ 0
  | always => True

instance (out : Word) (j : Jump) : Decidable (j.Holds out) := by
  cases j <;> unfold Jump.Holds <;> infer_instance

namespace Instruction

/-- What an instruction computes. -/
def result (i : Instruction) (c : Core) : Word := i.comp.value c.d c.a (c.memory c.a)

/-- What an instruction makes of memory and registers. -/
def apply (i : Instruction) (c : Core) : Core where
  memory := if i.dest.m then Function.update c.memory c.a (i.result c) else c.memory
  a := if i.dest.a then i.result c else c.a
  d := if i.dest.d then i.result c else c.d

/-- There is the cell that an instruction reads or writes. -/
def Allowed (i : Instruction) (c : Core) : Prop := i.comp.readsM ∨ i.dest.m → c.a.toNat < memorySize

instance (i : Instruction) (c : Core) : Decidable (i.Allowed c) := by
  unfold Allowed
  infer_instance

end Instruction

theorem Dest.bits_a (x : Dest) : x.bits[2] = x.a := by
  obtain ⟨a, d, m⟩ := x
  revert a d m
  decide

theorem Dest.bits_d (x : Dest) : x.bits[1] = x.d := by
  obtain ⟨a, d, m⟩ := x
  revert a d m
  decide

theorem Dest.bits_m (x : Dest) : x.bits[0] = x.m := by
  obtain ⟨a, d, m⟩ := x
  revert a d m
  decide

/-- **The control bits of a computation.**  They make the arithmetic unit compute what its mnemonic
says. -/
theorem alu_bits (comp : Comp) (d a m : Word) :
    alu (comp.bits.setWidth 6) d (if comp.readsM then m else a) = comp.value d a m := by
  have hones : (65535#16 : Word) = -1#16 := rfl
  have hnot (x : Word) : ~~~x = -x - 1 := BitVec.not_eq_neg_add x
  have hand (x : Word) : x &&& 65535#16 = x := BitVec.and_allOnes
  have hpred (x : Word) : x + 65535#16 = x - 1#16 := by rw [hones, sub_eq_add_neg]
  have hneg (x : Word) : ~~~(x - 1#16) = -x := by
    show ~~~(x - 1) = -x
    rw [hnot]
    ring
  have hsub (x y : Word) : ~~~(~~~x + y) = x - y := by
    rw [hnot, hnot]
    ring
  have hsucc (x : Word) : -~~~x = x + 1#16 := by
    show -~~~x = x + 1
    rw [hnot]
    ring
  have hor (x y : Word) : ~~~(~~~x &&& ~~~y) = x ||| y := by
    rw [BitVec.not_and, BitVec.not_not, BitVec.not_not]
  have hand' (x : Word) : 65535#16 &&& x = x := by rw [BitVec.and_comm, hand]
  have hpred' (x : Word) : 65535#16 + x = x - 1#16 := by rw [add_comm, hpred]
  have hsub' (x y : Word) : ~~~(y + ~~~x) = x - y := by rw [add_comm, hsub]
  cases comp <;>
    simp [alu, Comp.bits, Comp.readsM, Comp.value, hand, hand', hpred, hpred', hneg, hsub,
      hsub', hsucc, hor]

/-- The bits of a jump. -/
theorem jumps_bits (j : Jump) (out : Word) : jumps j.bits out = decide (j.Holds out) := by
  have hmsb : out.msb = decide (out.toInt < 0) := BitVec.msb_eq_toInt
  have hzero : out = 0#16 ↔ out.toInt = 0 := by
    rw [← BitVec.toInt_inj]
    rfl
  rw [Bool.eq_iff_iff, decide_eq_true_eq]
  cases j <;> simp [jumps, Jump.bits, Jump.Holds, hmsb, hzero] <;> omega

namespace Instruction

variable (i : Instruction)

theorem msb_encode : i.encode.msb = true := by
  unfold encode
  rw [BitVec.msb_append, BitVec.msb_append, BitVec.msb_append]
  rfl

theorem extract_comp : i.encode.extractLsb' 6 7 = i.comp.bits := by
  have hjump : i.encode.extractLsb' 6 7 = (0b111#3 ++ i.comp.bits ++ i.dest.bits).extractLsb' 3 7 :=
    BitVec.extractLsb'_append_eq_ite
  have hdest : (0b111#3 ++ i.comp.bits ++ i.dest.bits).extractLsb' 3 7 =
      (0b111#3 ++ i.comp.bits).extractLsb' 0 7 := BitVec.extractLsb'_append_eq_ite
  rw [hjump, hdest, BitVec.extractLsb'_append_eq_right]

theorem extract_dest : i.encode.extractLsb' 3 3 = i.dest.bits := by
  have hjump : i.encode.extractLsb' 3 3 = (0b111#3 ++ i.comp.bits ++ i.dest.bits).extractLsb' 0 3 :=
    BitVec.extractLsb'_append_eq_ite
  rw [hjump, BitVec.extractLsb'_append_eq_right]

theorem extract_jump : i.encode.extractLsb' 0 3 = (i.jump.map Jump.bits).getD 0 := by
  unfold encode
  exact BitVec.extractLsb'_append_eq_right

end Instruction

namespace Cpu

variable {rom : List Word} {c : Cpu}

/-- A word that can be loaded is loaded. -/
theorem step_load {w : Word} (h : rom[c.pc]? = some w) (hw : w.toNat ≤ maxConstant) :
    c.step rom = some ⟨{ c.core with a := w }, c.pc + 1⟩ := by
  have hmsb : w.msb = false := by
    rw [BitVec.msb_eq_decide, decide_eq_false_iff_not]
    unfold maxConstant at hw
    omega
  unfold step
  rw [h]
  dsimp only
  rw [hmsb]
  rfl

/-- **An encoded instruction does what its mnemonics say.** -/
theorem step_compute {i : Instruction} (h : rom[c.pc]? = some i.encode) (hi : i.Allowed c.core) :
    c.step rom = some
      ⟨i.apply c.core, if ∃ j ∈ i.jump, j.Holds (i.result c.core) then c.core.a.toNat
        else c.pc + 1⟩ := by
  have hresult : alu (i.comp.bits.setWidth 6) c.core.d
      (if i.comp.bits[6] then c.core.memory c.core.a else c.core.a) = i.result c.core :=
    alu_bits i.comp _ _ _
  have hallowed : ¬ ((i.comp.bits[6] || i.dest.bits[0]) && memorySize ≤ c.core.a.toNat) = true := by
    rw [Bool.and_eq_true, decide_eq_true_eq, Bool.or_eq_true, Dest.bits_m]
    rintro ⟨hm, ha⟩
    have := hi hm
    omega
  have hjumps : (jumps ((i.jump.map Jump.bits).getD 0) (i.result c.core) = true) ↔
      ∃ j ∈ i.jump, j.Holds (i.result c.core) := by
    cases i.jump with
    | none => simp [jumps]
    | some j => simp [jumps_bits]
  unfold step compute
  rw [h]
  dsimp only
  rw [i.msb_encode, if_pos rfl, i.extract_comp, i.extract_dest, i.extract_jump,
    if_neg hallowed, hresult, Dest.bits_a, Dest.bits_d, Dest.bits_m]
  simp only [hjumps]
  rfl

end Cpu

end JackToolchain.Hack
