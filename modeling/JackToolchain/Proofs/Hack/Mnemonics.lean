import JackToolchain.Proofs.Hack.Meaning
import JackToolchain.Proofs.Hack.Cpu
import JackToolchain.Proofs.Placement

/-!
# What mnemonics say

A mnemonic of a computation is a formula with one operand or two: a register, the memory cell `M`,
zero or one.  Read as such a formula (`formulaValue`), with words as numbers modulo 2¹⁶, it says
what the arithmetic unit computes under the control bits of the mnemonic.  The letters of a
destination name the places where the result goes, and the mnemonic of a jump names the condition on
the result.

Main statement: where the source of an assembled program has an instruction, the processor does what
the letters of the instruction say, and nothing else (`mnemonics_hold`).  It only stops if the
instruction has the letter `M` and `A` points behind the memory.
-/

namespace JackToolchain.Hack

variable {source : String} {words : Array Word} {lines front behind : List Line} {i : Instruction}

/-! ### Formulas -/

/-- What an operand of a formula stands for. -/
def operandValue (d a m : Word) : Char → Option Word
  | '0' => some 0
  | '1' => some 1
  | 'D' => some d
  | 'A' => some a
  | 'M' => some m
  | _ => none

/-- The value of a formula.  Words are added and subtracted modulo 2¹⁶, and combined bit by bit. -/
def formulaValue (d a m : Word) : List Char → Option Word
  | [x] => operandValue d a m x
  | ['-', x] => (operandValue d a m x).map (- ·)
  | ['!', x] => (operandValue d a m x).map (~~~ ·)
  | [x, '+', y] => Option.map₂ (· + ·) (operandValue d a m x) (operandValue d a m y)
  | [x, '-', y] => Option.map₂ (· - ·) (operandValue d a m x) (operandValue d a m y)
  | [x, '&', y] => Option.map₂ (· &&& ·) (operandValue d a m x) (operandValue d a m y)
  | [x, '|', y] => Option.map₂ (· ||| ·) (operandValue d a m x) (operandValue d a m y)
  | _ => none

/-- **A computation is the formula that its mnemonic spells.** -/
theorem formulaValue_text (comp : Comp) (d a m : Word) :
    formulaValue d a m comp.text.toList = some (comp.value d a m) := by
  cases comp <;> rfl

/-- The letter `M` stands in a formula if the instruction reads the memory cell. -/
theorem Comp.mem_text_iff (comp : Comp) : 'M' ∈ comp.text.toList ↔ comp.readsM = true := by
  cases comp <;> decide

/-! ### Letters of a destination -/

namespace Dest

variable (x : Dest)

theorem a_mem_text_iff : 'A' ∈ x.text.toList ↔ x.a = true := by
  obtain ⟨a, d, m⟩ := x
  revert a d m
  decide

theorem d_mem_text_iff : 'D' ∈ x.text.toList ↔ x.d = true := by
  obtain ⟨a, d, m⟩ := x
  revert a d m
  decide

theorem m_mem_text_iff : 'M' ∈ x.text.toList ↔ x.m = true := by
  obtain ⟨a, d, m⟩ := x
  revert a d m
  decide

end Dest

/-! ### Instructions by their letters -/

namespace Instruction

/-- The letters of an instruction name the memory cell. -/
def NamesM (i : Instruction) : Prop := 'M' ∈ i.comp.text.toList ∨ 'M' ∈ i.dest.text.toList

instance (i : Instruction) : Decidable i.NamesM := inferInstanceAs (Decidable (_ ∨ _))

theorem namesM_iff (i : Instruction) : i.NamesM ↔ i.comp.readsM = true ∨ i.dest.m = true := by
  unfold NamesM
  rw [Comp.mem_text_iff, Dest.m_mem_text_iff]

theorem allowed_iff (i : Instruction) (c : Core) :
    i.Allowed c ↔ ¬(i.NamesM ∧ memorySize ≤ c.a.toNat) := by
  unfold Allowed
  rw [namesM_iff, not_and, Nat.not_le]

end Instruction

/-- Without the memory cell that an encoded instruction names, the processor does not go on. -/
theorem Cpu.step_of_not_allowed {rom : List Word} {c : Cpu} (h : rom[c.pc]? = some i.encode)
    (hi : ¬i.Allowed c.core) : c.step rom = none := by
  rw [Instruction.allowed_iff, not_not, Instruction.namesM_iff] at hi
  have hstop : ((i.comp.bits[6] || i.dest.bits[0]) && decide (memorySize ≤ c.core.a.toNat)) =
      true := by
    rw [Dest.bits_m, Bool.and_eq_true, Bool.or_eq_true, decide_eq_true_eq]
    exact hi
  unfold step compute
  rw [h]
  dsimp only
  rw [i.msb_encode, if_pos rfl, i.extract_comp, i.extract_dest, if_pos hstop]

/-- **What the letters of an encoded instruction say.** -/
theorem Cpu.step_of_letters {rom : List Word} {c : Core} {place : Nat}
    (h : rom[place]? = some i.encode) {out : Word}
    (hout : formulaValue c.d c.a (c.memory c.a) i.comp.text.toList = some out) :
    (⟨c, place⟩ : Cpu).step rom =
      if i.NamesM ∧ memorySize ≤ c.a.toNat then none
      else some
        { core :=
            { memory :=
                if 'M' ∈ i.dest.text.toList then Function.update c.memory c.a out else c.memory
              a := if 'A' ∈ i.dest.text.toList then out else c.a
              d := if 'D' ∈ i.dest.text.toList then out else c.d }
          pc := if ∃ j ∈ i.jump, j.Holds out then c.a.toNat else place + 1 } := by
  rw [formulaValue_text] at hout
  have hresult : i.result c = out := Option.some.inj hout
  by_cases hi : i.Allowed c
  · have happly : i.apply c =
        { memory := if 'M' ∈ i.dest.text.toList then Function.update c.memory c.a out else c.memory
          a := if 'A' ∈ i.dest.text.toList then out else c.a
          d := if 'D' ∈ i.dest.text.toList then out else c.d } := by
      unfold Instruction.apply
      simp only [hresult, Dest.a_mem_text_iff, Dest.d_mem_text_iff, Dest.m_mem_text_iff]
    rw [step_compute h hi, if_neg ((i.allowed_iff c).mp hi), happly, hresult]
  · have hnames := not_not.mp (mt (i.allowed_iff c).mpr hi)
    rw [step_of_not_allowed h hi, if_pos hnames]

/-! ### Instructions of a source -/

theorem words_of_stretchesSay (h : assemble source = .ok words)
    (hlines : StretchesSay source lines) : words.toList = wordsOf (addressOf lines) lines := by
  obtain ⟨lines', hlines', -, hwords⟩ := assemble_iff.mp h
  obtain rfl := tokensSay_unique hlines' (tokensSay_iff_stretchesSay.mpr hlines)
  exact hwords

/-- An instruction of a source is encoded at its place in the program. -/
theorem getElem?_of_stretchesSay (h : assemble source = .ok words)
    (hlines : StretchesSay source lines) (hi : lines = front ++ .statement (.compute i) :: behind) :
    words.toList[wordCount front]? = some i.encode := by
  have hwords := words_of_stretchesSay h hlines
  have hplaced :=
    placedAt_middle (wordsOf (addressOf lines) front) [i.encode] (wordsOf (addressOf lines) behind)
  have hsplit : wordsOf (addressOf lines) lines =
      wordsOf (addressOf lines) front ++ [i.encode] ++ wordsOf (addressOf lines) behind := by
    conv_lhs => rw [hi]
    rw [wordsOf_append, wordsOf_cons, List.append_assoc, ← hi]
    rfl
  rw [← hsplit, ← hwords, length_wordsOf] at hplaced
  exact (placedAt_cons.mp hplaced).1

/-- **Mnemonics mean what they say.**  Under the bits of an accepted mnemonic the arithmetic unit
computes the value of the formula that the mnemonic spells.  And at the place of an instruction of
an assembled source, the processor stores the value of its formula in the places that are named in
front of the equals sign and in no others, and goes on at the address in `A` exactly if its jump
holds of the value; unless the memory cell is named that is not there. -/
theorem mnemonics_hold :
    (∀ text comp, Comp.ofText? text = some comp → ∀ d a m : Word,
      formulaValue d a m text.toList =
        some (alu (comp.bits.setWidth 6) d (if comp.bits.getLsbD 6 then m else a))) ∧
    ∀ source words lines front behind, ∀ i : Instruction, assemble source = .ok words →
      StretchesSay source lines → lines = front ++ .statement (.compute i) :: behind → ∀ c : Core,
      ∃ out, formulaValue c.d c.a (c.memory c.a) i.comp.text.toList = some out ∧
        (⟨c, wordCount front⟩ : Cpu).step words.toList =
          if i.NamesM ∧ memorySize ≤ c.a.toNat then none
          else some
            { core :=
                { memory :=
                    if 'M' ∈ i.dest.text.toList then Function.update c.memory c.a out else c.memory
                  a := if 'A' ∈ i.dest.text.toList then out else c.a
                  d := if 'D' ∈ i.dest.text.toList then out else c.d }
              pc := if ∃ j ∈ i.jump, j.Holds out then c.a.toNat else wordCount front + 1 } := by
  constructor
  · intro text comp htext d a m
    rw [← Comp.text_eq_of_ofText? htext, formulaValue_text]
    exact congrArg some (alu_bits comp d a m).symm
  · intro source words lines front behind i h hlines hi c
    have hout := formulaValue_text i.comp c.d c.a (c.memory c.a)
    exact ⟨_, hout, Cpu.step_of_letters (getElem?_of_stretchesSay h hlines hi) hout⟩

/-- An instruction on a line with blanks and a comment.  It names two places, and the result is
negative, so there is no jump. -/
theorem mnemonics_hold_countdown :
    assemble "AM = M-1;JGE // back\n" = .ok #[0xFCAB] ∧
      (⟨⟨fun _ => 0, 5, 7⟩, 0⟩ : Cpu).step [0xFCAB] =
        some ⟨⟨Function.update (fun _ => 0) 5 (-1), -1, 7⟩, 1⟩ := by
  have hassemble : assemble "AM = M-1;JGE // back\n" = .ok #[0xFCAB] := by decide +kernel
  let i : Instruction := ⟨⟨true, false, true⟩, .mMinusOne, some .ge⟩
  have hcode : "AM = M-1;JGE ".toList.filter (fun c => !isBlank c) = i.text.toList := by decide
  have hlines : StretchesSay "AM = M-1;JGE // back\n" [.statement (.compute i)] := by
    rw [stretchesSay_iff_reads (by decide)]
    exact ⟨[some (.compute i), none], .cons (.compute hcode) (.cons (.nothing nofun) .nil), rfl⟩
  obtain ⟨out, hout, hstep⟩ :=
    mnemonics_hold.2 _ _ _ [] [] i hassemble hlines rfl ⟨fun _ => 0, 5, 7⟩
  have hvalue : formulaValue 7 5 0 "M-1".toList = some (-1) := by decide
  obtain rfl : -1 = out := Option.some.inj (hvalue.symm.trans hout)
  have ha : 'A' ∈ i.dest.text.toList := by decide
  have hd : 'D' ∉ i.dest.text.toList := by decide
  have hm : 'M' ∈ i.dest.text.toList := by decide
  have hjump : ¬∃ j ∈ i.jump, j.Holds (-1) := by decide
  rw [if_neg (by decide), if_pos ha, if_neg hd, if_pos hm, if_neg hjump] at hstep
  exact ⟨hassemble, hstep⟩

end JackToolchain.Hack
