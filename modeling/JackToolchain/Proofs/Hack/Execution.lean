import JackToolchain.Hack.Assembly
import JackToolchain.Proofs.Hack.Cpu
import JackToolchain.Proofs.Placement

/-!
# Executing lines of assembly

Lines of assembly have words as soon as symbols have addresses.  Straight code, which does not jump,
is executed line by line (`executeAll`); where the words of the lines are placed in a program, the
processor does the same (`Cpu.runs_of_executeAll`).  A jump ends straight code, and is a step of its
own (`Cpu.runs_of_jump`).
-/

namespace JackToolchain.Hack

/-! ### Words of lines -/

/-- The word of a line, if it has one. -/
def Line.word? (address : String → Word) : Line → Option Word
  | .comment _ => none
  | .statement (.label _) => none
  | .statement (.load (.constant n)) => some (BitVec.ofNat 16 n)
  | .statement (.load (.symbol name)) => some (address name)
  | .statement (.compute i) => some i.encode

/-- The words of lines. -/
def wordsOf (address : String → Word) (lines : List Line) : List Word :=
  lines.filterMap (Line.word? address)

/-- How many words a line has. -/
def Line.wordCount : Line → Nat
  | .comment _ => 0
  | .statement (.label _) => 0
  | .statement _ => 1

/-- How many words lines have. -/
def wordCount (lines : List Line) : Nat := (lines.map Line.wordCount).sum

section
variable {address : String → Word} {xs ys : List Line} {l : Line}

theorem wordsOf_cons :
    wordsOf address (l :: xs) = (l.word? address).toList ++ wordsOf address xs := by
  unfold wordsOf
  rw [List.filterMap_cons]
  cases l.word? address <;> rfl

theorem wordsOf_append : wordsOf address (xs ++ ys) = wordsOf address xs ++ wordsOf address ys :=
  List.filterMap_append

@[simp]
theorem wordCount_nil : wordCount [] = 0 := rfl

@[simp]
theorem wordCount_cons : wordCount (l :: xs) = l.wordCount + wordCount xs := by
  unfold wordCount
  rw [List.map_cons, List.sum_cons]

@[simp]
theorem wordCount_append : wordCount (xs ++ ys) = wordCount xs + wordCount ys := by
  unfold wordCount
  rw [List.map_append, List.sum_append]

theorem length_word? : (l.word? address).toList.length = l.wordCount := by
  match l with
  | .comment _ | .statement (.label _) => rfl
  | .statement (.load (.constant _)) | .statement (.load (.symbol _)) | .statement (.compute _) =>
    rfl

@[simp]
theorem length_wordsOf : (wordsOf address xs).length = wordCount xs := by
  induction xs with
  | nil => rfl
  | cons l xs ih =>
    rw [wordsOf_cons, List.length_append, ih, length_word?, wordCount_cons]

end

/-! ### Straight code -/

/-- Executes a line that does not jump. -/
def Line.execute (address : String → Word) (c : Core) : Line → Option Core
  | .comment _ => some c
  | .statement (.label _) => some c
  | .statement (.load (.constant n)) =>
    if n ≤ maxConstant then some { c with a := BitVec.ofNat 16 n } else none
  | .statement (.load (.symbol name)) =>
    if (address name).toNat ≤ maxConstant then some { c with a := address name } else none
  | .statement (.compute i) => if i.jump = none ∧ i.Allowed c then some (i.apply c) else none

/-- Executes lines that do not jump. -/
def executeAll (address : String → Word) : List Line → Core → Option Core
  | [], c => some c
  | l :: ls, c => (l.execute address c).bind (executeAll address ls)

section
variable {address : String → Word} {rom : List Word} {start : Nat} {c c' : Core} {xs ys : List Line}

theorem executeAll_append :
    executeAll address (xs ++ ys) c = (executeAll address xs c).bind (executeAll address ys) := by
  induction xs generalizing c with
  | nil => rfl
  | cons l xs ih =>
    show (l.execute address c).bind (executeAll address (xs ++ ys)) =
      ((l.execute address c).bind (executeAll address xs)).bind (executeAll address ys)
    rw [Option.bind_assoc]
    congr 1
    funext c
    exact ih

/-- One line of straight code. -/
theorem Cpu.runs_of_line {l : Line} (hplaced : PlacedAt rom start (l.word? address).toList)
    (h : l.execute address c = some c') :
    Runs rom start (start + l.wordCount) ⟨c, start⟩ ⟨c', start + l.wordCount⟩ := by
  -- A line with a word takes one step.
  have hone {w : Word} (hstep : rom[start]? = some w →
      Cpu.step rom ⟨c, start⟩ = some ⟨c', start + 1⟩)
      (hw : PlacedAt rom start [w]) : Runs rom start (start + 1) ⟨c, start⟩ ⟨c', start + 1⟩ :=
    .step le_rfl (Nat.lt_succ_self start) (hstep (placedAt_cons.mp hw).1) (.refl _)
  match l with
  | .comment _ | .statement (.label _) =>
    obtain rfl := Option.some.inj h
    exact .refl _
  | .statement (.load (.constant n)) =>
    obtain ⟨hn, hc⟩ := Option.ite_none_right_eq_some.mp h
    obtain rfl := Option.some.inj hc
    refine hone (fun hword => step_load hword ?_) hplaced
    rw [BitVec.toNat_ofNat]
    exact le_trans (Nat.mod_le _ _) hn
  | .statement (.load (.symbol name)) =>
    obtain ⟨hn, hc⟩ := Option.ite_none_right_eq_some.mp h
    obtain rfl := Option.some.inj hc
    exact hone (fun hword => step_load hword hn) hplaced
  | .statement (.compute i) =>
    obtain ⟨⟨hjump, hi⟩, hc⟩ := Option.ite_none_right_eq_some.mp h
    refine hone (fun hword => ?_) hplaced
    rw [step_compute hword hi, Option.some.inj hc, hjump]
    simp

/-- **Straight code at its place.** -/
theorem Cpu.runs_of_executeAll (xs : List Line) (hplaced : PlacedAt rom start (wordsOf address xs))
    (h : executeAll address xs c = some c') :
    Runs rom start (start + wordCount xs) ⟨c, start⟩ ⟨c', start + wordCount xs⟩ := by
  induction xs generalizing start c with
  | nil =>
    obtain rfl := Option.some.inj h
    exact .refl _
  | cons l xs ih =>
    rw [wordsOf_cons, placedAt_append, length_word?] at hplaced
    obtain ⟨hline, hrest⟩ := hplaced
    obtain ⟨c₁, hl, hxs⟩ := Option.bind_eq_some_iff.mp h
    have hfirst := runs_of_line hline hl
    have hnext := ih hrest hxs
    rw [wordCount_cons, ← Nat.add_assoc]
    exact (hfirst.mono le_rfl (by omega)).trans (hnext.mono (by omega) le_rfl)

/-- A jump at its place. -/
theorem Cpu.runs_of_jump {i : Instruction} (hplaced : PlacedAt rom start [i.encode])
    (hi : i.Allowed c) : Runs rom start (start + 1) ⟨c, start⟩
      ⟨i.apply c, if ∃ j ∈ i.jump, j.Holds (i.result c) then c.a.toNat else start + 1⟩ := by
  have hword : rom[start]? = some i.encode := (placedAt_cons.mp hplaced).1
  exact .step le_rfl (Nat.lt_succ_self start) (step_compute hword hi) (.refl _)

end

end JackToolchain.Hack
