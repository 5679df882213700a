import JackToolchain.Proofs.VM.Simulation

/-!
# Comparisons

A comparison looks at the sign of the difference of two words.  The difference is computed on words,
while the words are read as integers in two's complement.  So the sign is that of the integers as
long as their difference is a word itself, and it is the opposite one if the subtraction overflows:
`gt` and `lt` change places then (`holds_sub_iff`).  Equality does not depend on the distance of the
words.

`runs_compare` says so of the block of a comparison, wherever it is placed in an assembled program,
and `not_greater_than_far_below` has two words that are compared in the wrong way.
-/

namespace JackToolchain.VM

open Hack Block Translator

/-! ### Words as integers -/

/-- Whether a comparison holds of two words that are read as integers. -/
def ArithOp.Compares (x y : Word) : ArithOp → Prop
  | .eq => x.toInt = y.toInt
  | .gt => y.toInt < x.toInt
  | .lt => x.toInt < y.toInt
  | .add | .sub | .neg | .and | .or | .not => False

instance (op : ArithOp) (x y : Word) : Decidable (op.Compares x y) := by
  cases op <;> unfold ArithOp.Compares <;> infer_instance

section
variable {x y : Word} {op : ArithOp} {j : Jump}

/-- Where the subtraction overflows, the integers are so far apart that the word is on the other
side of zero. -/
theorem toInt_sub_of_ssubOverflow (h : x.ssubOverflow y = true) :
    (x - y).toInt < 0 ∧ y.toInt < x.toInt ∨ 0 < (x - y).toInt ∧ x.toInt < y.toInt := by
  have hx := x.toInt_lt
  have hx' := x.le_toInt
  have hy := y.toInt_lt
  have hy' := y.le_toInt
  simp only [BitVec.ssubOverflow, Bool.or_eq_true, decide_eq_true_eq] at h
  rw [BitVec.toInt_sub, Int.bmod_eq_emod]
  split <;> omega

/-- **The sign of a difference** says how the integers compare, unless the subtraction overflows.
Then it says the converse. -/
theorem holds_sub_iff (h : Context.comparison? op = some j) :
    j.Holds (x - y) ↔ if x.ssubOverflow y then op.Compares y x else op.Compares x y := by
  have hzero : x - y = 0 ↔ (x - y).toInt = 0 := by
    rw [← BitVec.toInt_inj]
    rfl
  by_cases hoverflow : x.ssubOverflow y = true
  · have hsign := toInt_sub_of_ssubOverflow hoverflow
    rw [if_pos hoverflow]
    cases op <;> cases h <;> simp only [Jump.Holds, ArithOp.Compares, hzero] <;> omega
  · have hsub : (x - y).toInt = x.toInt - y.toInt := BitVec.toInt_sub_of_not_ssubOverflow hoverflow
    rw [if_neg hoverflow]
    cases op <;> cases h <;> simp only [Jump.Holds, ArithOp.Compares, hzero, hsub] <;> omega

end

/-! ### Blocks of comparisons -/

section
variable {lines front block behind : List Line} {rom : Array Word} {c : Context} {op : ArithOp}
  {m : Memory} {a d : Word}

/-- A label of an assembled program stands for its place, if the place can be loaded. -/
theorem toNat_label_of_le {address : String → Word} {words : List Word} {name : String}
    (h : Assembled lines words address) (hlines : lines = front ++ Block.label name :: behind)
    (hsize : wordCount front ≤ maxConstant) : (address name).toNat = wordCount front := by
  rw [h.label front name behind hlines, BitVec.toNat_ofNat]
  unfold maxConstant at hsize
  omega

/-- **Comparisons, as they are.**  From the first word of its block, the processor runs through a
comparison and leaves all ones or zero in the place of the two words: all ones if the comparison
holds of the integers, or, where the subtraction overflows, if it holds of them the other way
round. -/
theorem runs_compare (hprintable : ∀ l ∈ lines, l.Printable)
    (hassembled : assemble (linesText lines) = .ok rom) (hop : op = .eq ∨ op = .gt ∨ op = .lt)
    (hblock : c.block (.arith op) = .ok block) (hlines : lines = front ++ block ++ behind)
    (hsize : wordCount front + wordCount block ≤ memorySize) (htop : InStack (m 0 - 1))
    (hnext : InStack (m 0 - 2)) :
    ∃ a' d', Cpu.Runs rom.toList (wordCount front) (wordCount front + wordCount block)
      ⟨⟨m, a, d⟩, wordCount front⟩
      ⟨⟨Function.update (Function.update m 0 (m 0 - 1)) (m 0 - 2)
        (if if (m (m 0 - 2)).ssubOverflow (m (m 0 - 1)) then op.Compares (m (m 0 - 1)) (m (m 0 - 2))
          else op.Compares (m (m 0 - 2)) (m (m 0 - 1)) then -1 else 0), a', d'⟩,
        wordCount front + wordCount block⟩ := by
  obtain ⟨j, hj, rfl⟩ : ∃ j, Context.comparison? op = some j ∧ block = c.compareBlock j := by
    rcases hop with rfl | rfl | rfl <;> cases hblock <;> exact ⟨_, rfl, rfl⟩
  have h := assembled_of_assemble hprintable hassembled
  rw [wordCount_compareBlock] at hsize ⊢
  have htrueLines : lines =
    (front ++ (takeDifference ++ [load c.trueLabel, jump .d j, set toD .zero, load c.endLabel,
      jump .zero .always])) ++ Block.label c.trueLabel ::
      (set toD .minusOne :: Block.label c.endLabel :: pushD ++
        behind) := by
    rw [hlines, compareBlock_eq]
    simp
  have hendLines : lines =
    (front ++ (takeDifference ++ [load c.trueLabel, jump .d j, set toD .zero, load c.endLabel,
      jump .zero .always, Block.label c.trueLabel, set toD .minusOne]))
      ++ Block.label c.endLabel :: (pushD ++
        behind) := by
    rw [hlines, compareBlock_eq]
    simp
  unfold memorySize at hsize
  have htrue :=
    toNat_label_of_le h htrueLines (by simp [wordCount_takeDifference, maxConstant]; omega)
  have hend :=
    toNat_label_of_le h hendLines (by simp [wordCount_takeDifference, maxConstant]; omega)
  simp only [← holds_sub_iff hj]
  refine runs_compareBlock h.predefined (h.placed hlines) ?_ ?_ ?_ htop hnext
  · simpa [wordCount_takeDifference] using htrue
  · simpa [wordCount_takeDifference] using hend
  · unfold maxConstant
    omega

end

/-! ### Words far apart -/

/-- A stack with the largest word on it, and minus one on top of that. -/
def farMemory : Memory := fun x => if x = 0 then 258 else if x = 256 then 32767 else -1

/-- A unit that compares. -/
def greaterUnits : List (String × String) := [("Main", "gt\n")]

theorem readProgram_gt : readProgram "gt\n" = .ok [⟨1, .arith .gt⟩] := rfl

theorem namesAreSymbols_greater : NamesAreSymbols greaterUnits := by
  intro u hu
  obtain rfl := List.mem_singleton.mp hu
  refine ⟨by decide, fun program hprogram => ?_⟩
  cases readProgram_gt.symm.trans hprogram
  decide

theorem exists_built_greater : ∃ rom, Built {} greaterUnits rom := by
  have hprintable : ∀ l ∈ program {} greaterUnits, l.Printable :=
    printable_program namesAreSymbols_greater
  obtain ⟨rom, hrom⟩ := exists_assemble hprintable (by decide) (by decide) (by decide)
  refine ⟨rom, namesAreSymbols_greater, hrom, ?_⟩
  rw [← Array.length_toList, (assembled_of_assemble hprintable hrom).words, length_wordsOf]
  decide

/-- The two words are compared the other way round. -/
theorem runs_compare_far : ∃ rom, assemble (linesText (program {} greaterUnits)) = .ok rom ∧
    ∃ a' d', Cpu.Runs rom.toList 0 17 ⟨⟨farMemory, 0, 0⟩, 0⟩
      ⟨⟨Function.update (Function.update farMemory 0 257) 256
        (if ArithOp.gt.Compares (-1) 32767 then -1 else 0), a', d'⟩, 17⟩ := by
  obtain ⟨rom, h⟩ := exists_built_greater
  have hlines : program {} greaterUnits = [] ++ Context.compareBlock { unit := "Main" } .gt
    ++ ending {} := rfl
  exact ⟨rom, h.assembled, runs_compare (printable_program h.names) h.assembled
    (.inr (.inl rfl)) rfl hlines (by decide) ⟨by decide, by decide⟩ ⟨by decide, by decide⟩⟩

/-- `gt` finds that the largest word is not greater than minus one. -/
theorem not_greater_than_far_below :
    (farMemory 257).toInt < (farMemory 256).toInt ∧ ∃ rom, Built {} greaterUnits rom ∧
    ∃ a' d', Cpu.Runs rom.toList 0 17 ⟨⟨farMemory, 0, 0⟩, 0⟩
      ⟨⟨Function.update (Function.update farMemory 0 257) 256 0, a', d'⟩, 17⟩ := by
  obtain ⟨rom, h⟩ := exists_built_greater
  have hbefore : ((ofUnits {} []).beginUnit "Main").writeAll [] =
      (.ok (), ⟨{}, #[], { unit := "Main" }⟩) := rfl
  have hoccurs : Occurs {} greaterUnits [] { unit := "Main" } (.arith .gt)
      (Context.compareBlock { unit := "Main" } .gt) := by
    exact .ofUnit rfl readProgram_gt hbefore rfl
  refine ⟨by decide, rom, h, ?_⟩
  exact runs_comparison h hoccurs ⟨by decide, by decide⟩ ⟨by decide, by
    decide⟩ (Context.effect_comparison _ _ rfl)

end JackToolchain.VM
