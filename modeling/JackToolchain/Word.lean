/-!
# Machine words

The Hack platform computes with words of sixteen bits: registers, memory cells, addresses and the
operands of virtual machine commands are all of this width.  A bit vector is used, so that
arithmetic wraps where the hardware wraps and a bound such as "at most 65535" is part of the type.
-/

namespace JackToolchain

/-- A word of the Hack platform. -/
abbrev Word : Type := BitVec 16

namespace Word

/-- The largest number that fits a word. -/
def maxNat : Nat := 65535

/-- The word that stands for `n`, when `n` fits. -/
def ofNat? (n : Nat) : Option Word :=
  if n ≤ maxNat then some (BitVec.ofNat 16 n) else none

/-- The decimal text of a word, read as a number. -/
def decimal (w : Word) : String := toString w.toNat

theorem ofNat?_eq_some_iff {n : Nat} {w : Word} : ofNat? n = some w ↔ w.toNat = n := by
  unfold ofNat? maxNat
  have hw : w.toNat < 65536 := w.isLt
  split
  · constructor
    · intro h
      have h' : BitVec.ofNat 16 n = w := Option.some.inj h
      rw [← h', BitVec.toNat_ofNat]
      omega
    · intro h
      rw [← h, BitVec.ofNat_toNat, BitVec.setWidth_eq]
  · constructor
    · intro h
      cases h
    · intro h
      omega

end Word

end JackToolchain
