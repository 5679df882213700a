import JackToolchain.Proofs.Jack.FunctionBlocks

/-!
# What compiles is translated

The text that a source is compiled to is a program: it has one line for each command that has been
generated, the commands are read from these lines, and none of them asks for a cell that is not
there.  So the program is translated, under every name and with all settings
(`translated_of_compile`).

The names in the commands are what this depends on.  They are made of identifiers, dots and numbers,
and have neither blanks nor comments in them.
-/

namespace JackToolchain.Jack

open VM (Settings Translator numberedFrom programText readProgram)

/-- A program of commands that can be translated is translated under every name. -/
theorem exists_translate {p : VM.Part} (h : p.Sound) (unit : String) (settings : Settings) :
    ∃ asm, VM.translate unit (programText p.commands) settings = .ok asm := by
  obtain ⟨t, htranslate, -⟩ :=
    Translator.translateUnit_of_translatable (.new settings) unit h.wellNamed h.translatable
  refine ⟨t.finish, ?_⟩
  unfold VM.translate
  rw [htranslate]

/-- **What compiles is read back and translated.**  The output is the text of the commands that the
class generates.  They are read from it, one on each line; none of them pops into a constant or has
an index that is out of range; and the output is translated under every name and with all
settings. -/
theorem translated_of_compile {source output : String} (h : compile .vm source = .ok output) :
    ∃ c g, parseUnit source = .ok c ∧ (Generator.new .unlimited).compile c = (.ok (), g) ∧
      output = programText g.sink.commands.toList ∧
      readProgram output = .ok (numberedFrom 1 g.sink.commands.toList) ∧
      (∀ cmd ∈ g.sink.commands.toList, cmd.Translatable) ∧
      ∀ unit settings, ∃ asm, VM.translate unit output settings = .ok asm := by
  obtain ⟨c, g, hparse, hrun, hcommands, houtput, hread⟩ := program_of_compile h
  have hsound : c.part.Sound := Class.sound_part (spelled_of_parseUnit hparse)
  rw [← hcommands] at houtput hread
  refine ⟨c, g, hparse, hrun, houtput, hread, ?_, fun unit settings => ?_⟩
  · rw [hcommands]
    exact hsound.translatable
  · rw [houtput, hcommands]
    exact exists_translate hsound unit settings

/-- A class with variables of all kinds is translated under a name that is no symbol. -/
theorem translated_of_compile_cell : ∃ output, compile .vm cellSource = .ok output ∧
    (∃ program, readProgram output = .ok program) ∧
      ∃ asm, VM.translate "a cell" output {} = .ok asm := by
  obtain ⟨output, houtput⟩ := exists_output_cell
  obtain ⟨_, _, -, -, -, hread, -, htranslate⟩ := translated_of_compile houtput
  exact ⟨output, houtput, ⟨_, hread⟩, htranslate "a cell" {}⟩

end JackToolchain.Jack
