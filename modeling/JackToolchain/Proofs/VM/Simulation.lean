import JackToolchain.Proofs.VM.Jumps
import JackToolchain.Proofs.VM.Listing

/-!
# Translated commands do what they mean

Units are translated into one program, and its text is assembled.  Wherever a command has been
translated, the processor, set to the first word of the block, does to memory what the command means
and goes on where the command goes on (`runs_command`).  Nothing is assumed of the other words of
the program, of the registers, or of memory apart from the cells that the command touches.

Calls and returns are not local to a function, and are described together elsewhere.
-/

namespace JackToolchain.VM

open Hack Block Translator

/-! ### Programs -/

/-- Units that have been translated and assembled.  The names in them are symbols, and each place in
the program is a constant that can be loaded. -/
structure Built (settings : Settings) (units : List (String × String)) (rom : Array Word) :
    Prop where
  names : NamesAreSymbols units
  assembled : assemble (ofUnits settings units).finish = .ok rom
  size : rom.size ≤ maxConstant

/-- The address of a symbol of a program. -/
def symbolAddress (settings : Settings) (units : List (String × String)) : String → Word :=
  addressIn (ofUnits settings units).finish

/-- A program declares a label at a place. -/
def DeclaredAt (lines : List Line) (name : String) (place : Nat) : Prop :=
  ∃ front behind, lines = front ++ Block.label name :: behind ∧ place = wordCount front

/-- The commands that stay in their function. -/
def Command.IsLocal : Command → Prop
  | .call _ _ | .ret => False
  | _ => True

section
variable {settings : Settings} {units : List (String × String)} {rom : Array Word}
  {front block : List Line} {c : Context} {command : Command} {m : Memory} {a d : Word}
  {target place : Nat} {name : String}

theorem Built.toAssembled (h : Built settings units rom) :
    Assembled (program settings units) rom.toList (symbolAddress settings units) :=
  assembled_of_assemble (printable_program h.names) h.assembled

theorem Built.length_le (h : Built settings units rom) : rom.toList.length ≤ maxConstant := by
  rw [Array.length_toList]
  exact h.size

/-- A stretch at the front of a program ends at a constant. -/
theorem Built.wordCount_le {behind : List Line} (h : Built settings units rom)
    (hlines : program settings units = front ++ behind) : wordCount front ≤ maxConstant := by
  have hwords := congrArg List.length h.toAssembled.words
  rw [length_wordsOf, hlines, wordCount_append] at hwords
  have hsize := h.length_le
  omega

theorem Built.toNat_label (h : Built settings units rom)
    (hname : DeclaredAt (program settings units) name place) :
    (symbolAddress settings units name).toNat = place ∧ place ≤ maxConstant := by
  obtain ⟨front, behind, hlines, rfl⟩ := hname
  exact ⟨h.toAssembled.toNat_label h.length_le hlines, h.wordCount_le hlines⟩

/-- The block of a command is where the lines in front of it end. -/
theorem placed_of_occurs (h : Built settings units rom)
    (hoccurs : Occurs settings units front c command block) :
    PlacedAt rom.toList (wordCount front) (wordsOf (symbolAddress settings units) block) := by
  obtain ⟨-, behind, hlines⟩ := program_of_occurs hoccurs
  exact h.toAssembled.placed hlines

/-- The constants in a block can be loaded. -/
theorem constant_of_occurs (h : Built settings units rom)
    (hoccurs : Occurs settings units front c command block) :
    ∀ n, loadConstant n ∈ block → n ≤ maxConstant := by
  obtain ⟨-, behind, hlines⟩ := program_of_occurs hoccurs
  intro n hn
  refine h.toAssembled.constant n ?_
  rw [hlines]
  exact List.mem_append_left _ (List.mem_append_right _ hn)

/-- A label in a block is declared. -/
theorem declaredAt_of_occurs (hoccurs : Occurs settings units front c command block)
    (xs ys : List Line) (hblock : block = xs ++ Block.label name :: ys) :
    DeclaredAt (program settings units) name (wordCount front + wordCount xs) := by
  obtain ⟨-, behind, hlines⟩ := program_of_occurs hoccurs
  refine ⟨front ++ xs, ys ++ behind, ?_, wordCount_append.symm⟩
  rw [hlines, hblock]
  simp

/-- A comparison at its place. -/
theorem runs_comparison {op : ArithOp} {j : Jump} (h : Built settings units rom)
    (hoccurs : Occurs settings units front c (.arith op) (c.compareBlock j))
    (htop : InStack (m 0 - 1)) (hnext : InStack (m 0 - 2))
    (hresult : c.effect (symbolAddress settings units) m (.arith op) =
      Function.update (Function.update m 0 (m 0 - 1)) (m 0 - 2)
        (if j.Holds (m (m 0 - 2) - m (m 0 - 1)) then -1 else 0)) :
    ∃ a' d', Cpu.Runs rom.toList (wordCount front) (wordCount front + wordCount (c.compareBlock j))
      ⟨⟨m, a, d⟩, wordCount front⟩
      ⟨⟨c.effect (symbolAddress settings units) m (.arith op), a', d'⟩,
        wordCount front + wordCount (c.compareBlock j)⟩ := by
  have htrueAt : DeclaredAt (program settings units) c.trueLabel (wordCount front + 11) := by
    have hdeclared := declaredAt_of_occurs hoccurs (takeDifference ++
      [load c.trueLabel, jump .d j, set toD .zero, load c.endLabel, jump .zero .always]) _ rfl
    simpa [wordCount_takeDifference] using hdeclared
  have hendAt : DeclaredAt (program settings units) c.endLabel (wordCount front + 12) := by
    have hdeclared := declaredAt_of_occurs hoccurs (takeDifference ++
      [load c.trueLabel, jump .d j, set toD .zero, load c.endLabel, jump .zero .always,
      Block.label c.trueLabel,
        set toD .minusOne]) _ rfl
    simpa [wordCount_takeDifference] using hdeclared
  obtain ⟨htrue, -⟩ := h.toNat_label htrueAt
  obtain ⟨hend, hsize⟩ := h.toNat_label hendAt
  rw [hresult, wordCount_compareBlock]
  exact runs_compareBlock h.toAssembled.predefined (placed_of_occurs h hoccurs) htrue hend
    hsize htop hnext

/-- **Translated commands do what they mean.**  From the first word of the block of a command, the
processor runs through the block to the place where the command goes on, and memory is what the
command makes of it. -/
theorem runs_command (h : Built settings units rom)
    (hoccurs : Occurs settings units front c command block) (hlocal : command.IsLocal)
    (htarget : ∀ name ∈ command.target?,
      DeclaredAt (program settings units) (c.scopedLabel name) target)
    (haccesses : c.Accesses (symbolAddress settings units) m command) :
    ∃ a' d', Cpu.Runs rom.toList (wordCount front) (wordCount front + wordCount block)
      ⟨⟨m, a, d⟩, wordCount front⟩
      ⟨⟨c.effect (symbolAddress settings units) m command, a', d'⟩,
        command.next m (wordCount front + wordCount block) target⟩ := by
  obtain ⟨hblock, -⟩ := program_of_occurs hoccurs
  have hpredefined : Predefined (symbolAddress settings units) := h.toAssembled.predefined
  have hplaced := placed_of_occurs h hoccurs
  have hconstant := constant_of_occurs h hoccurs
  cases command with
  | push segment index =>
    exact runs_of_executes hplaced (executes_pushBlock hpredefined hblock hconstant haccesses)
  | pop segment index =>
    exact runs_of_executes hplaced (executes_popBlock hpredefined hblock hconstant haccesses)
  | arith op =>
    by_cases hop : op ≠ .eq ∧ op ≠ .gt ∧ op ≠ .lt
    · cases hblock
      exact runs_of_executes hplaced (executes_arithBlock hpredefined haccesses hop)
    · cases hblock
      cases op with
      | eq => exact runs_comparison h hoccurs haccesses.1 haccesses.2 (c.effect_comparison _ rfl)
      | gt => exact runs_comparison h hoccurs haccesses.1 haccesses.2 (c.effect_comparison _ rfl)
      | lt => exact runs_comparison h hoccurs haccesses.1 haccesses.2 (c.effect_comparison _ rfl)
      | add | sub | neg | and | or | not => exact absurd (by decide) hop
  | label name =>
    cases hblock
    exact ⟨a, d, .refl _⟩
  | goto name =>
    cases hblock
    obtain ⟨hplace, hsize⟩ := h.toNat_label (htarget name rfl)
    have hruns := runs_goto (m := m) (a := a) (d := d) hplaced (by omega)
    rwa [hplace] at hruns
  | ifGoto name =>
    cases hblock
    obtain ⟨hplace, hsize⟩ := h.toNat_label (htarget name rfl)
    have hruns := runs_ifGoto (m := m) (a := a) (d := d) hpredefined hplaced (by omega) haccesses
    rwa [hplace] at hruns
  | function name locals =>
    cases hblock
    exact runs_of_executes hplaced (executes_functionBlock hpredefined haccesses)
  | call name args => exact hlocal.elim
  | ret => exact hlocal.elim

end

/-! ### A program -/

/-- A unit that asks for a seven over and over. -/
def sevenSource : String :=
  "label AGAIN\ncall Main.seven 0\nif-goto AGAIN\nfunction Main.seven 0\npush constant 7\nreturn\n"

def sevenUnits : List (String × String) := [("Main", sevenSource)]

/-- The lines in front of its jump. -/
def sevenFront : List Line :=
  Block.label "AGAIN" :: Context.callBlock { unit := "Main" } "Main.seven" 0

theorem readProgram_seven :
    readProgram sevenSource = .ok [⟨1, .label "AGAIN"⟩, ⟨2, .call "Main.seven" 0⟩,
      ⟨3, .ifGoto "AGAIN"⟩, ⟨4, .function "Main.seven" 0⟩, ⟨5, .push .constant 7⟩, ⟨6, .ret⟩] := rfl

theorem namesAreSymbols_seven : NamesAreSymbols sevenUnits := by
  intro u hu
  obtain rfl := List.mem_singleton.mp hu
  refine ⟨by decide, fun program hprogram => ?_⟩
  cases readProgram_seven.symm.trans hprogram
  decide

theorem exists_built_seven : ∃ rom, Built {} sevenUnits rom := by
  have hprintable : ∀ l ∈ program {} sevenUnits, l.Printable :=
    printable_program namesAreSymbols_seven
  obtain ⟨rom, hrom⟩ := exists_assemble hprintable (by decide) (by decide) (by decide)
  refine ⟨rom, namesAreSymbols_seven, hrom, ?_⟩
  rw [← Array.length_toList, (assembled_of_assemble hprintable hrom).words, length_wordsOf]
  decide

/-- Where the cell below the top is not zero, the unit jumps back to its first word. -/
theorem runs_command_seven : ∃ rom, Built {} sevenUnits rom ∧
    ∃ a' d', Cpu.Runs rom.toList 47 52 ⟨⟨fun _ => 17, 0, 0⟩,
      47⟩ ⟨⟨Function.update (fun _ => 17) 0 16, a', d'⟩, 0⟩ := by
  obtain ⟨rom, h⟩ := exists_built_seven
  have hbefore : ((ofUnits {} []).beginUnit "Main").writeAll [⟨1, .label "AGAIN"⟩,
      ⟨2, .call "Main.seven" 0⟩] =
      (.ok (), ⟨{}, sevenFront.toArray, { unit := "Main", calls := 1 }⟩) := rfl
  have hoccurs : Occurs {} sevenUnits sevenFront { unit := "Main", calls := 1 } (.ifGoto "AGAIN")
      (popD ++ [load "AGAIN", jump .d .ne]) := by
    exact .ofUnit rfl readProgram_seven hbefore rfl
  have hdeclared : ∀ name ∈ (Command.ifGoto "AGAIN").target?,
      DeclaredAt (program {} sevenUnits)
      (Context.scopedLabel { unit := "Main", calls := 1 } name) 0 := by
    rintro name ⟨⟩
    exact ⟨[], _, rfl, rfl⟩
  exact ⟨rom, h, runs_command h hoccurs trivial hdeclared ⟨by decide, by decide⟩⟩

end JackToolchain.VM
