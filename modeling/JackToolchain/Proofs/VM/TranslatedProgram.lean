import JackToolchain.Proofs.VM.LabelNames
import JackToolchain.Proofs.VM.ProgramLayout

/-!
# A translated program is assembled

The units of a program are translated one behind the other.  A unit is translated from wherever the
one before it has left the counters, so the labels of comparisons and calls are numbered through all
units.  If the names in the units are spelled as they should be and the functions and the labels
inside them are different, the labels of the program are different (`nodup_programLabels`), and the
assembler accepts the program as far as labels are concerned.  So it is assembled if and only if all
of its commands have operands that can be loaded (`exists_assemble_program_iff`).
-/

namespace JackToolchain.VM

open Hack Block Text

/-! ### Units -/

/-- The names in a command are spelled as they should be. -/
structure Command.WellNamed (c : Command) : Prop where
  isWord : ∀ name ∈ c.names, IsWord name.toList
  isSymbol : ∀ name ∈ c.names, IsSymbol name
  function : ∀ name locals, c = .function name locals → IsFunctionName name
  label : ∀ name, c = .label name → ∀ x ∈ name.toList.head?, x ≠ 'C' ∧ x ≠ 'r'

theorem Command.WellNamed.isName {c : Command} (h : c.WellNamed) :
    ∀ name ∈ c.names, IsName name.toList :=
  fun name hname => (h.isWord name hname).isName

/-- The first command begins a function, if there is one. -/
def BeginsFunction (commands : List Command) : Prop :=
  ∀ c ∈ commands.head?, ∃ name locals, c = .function name locals

/-- A unit by its commands. -/
structure Part where
  unit : String
  commands : List Command

namespace Part

/-- The name of a unit and its text. -/
def source (p : Part) : String × String := (p.unit, programText p.commands)

/-- The names in a unit are spelled as they should be, and its commands can be translated, inside
functions all of them. -/
structure Sound (p : Part) : Prop where
  isSymbol : IsSymbol p.unit
  dollar : '$' ∉ p.unit.toList
  wellNamed : ∀ c ∈ p.commands, c.WellNamed
  translatable : ∀ c ∈ p.commands, c.Translatable
  begins : BeginsFunction p.commands

end Part

namespace Context

variable {c : Context} {command : Command} {commands : List Command}

theorem unit_after : (c.after command).unit = c.unit := by
  cases command with
  | arith op => cases op <;> rfl
  | label | function | call | push | pop | goto | ifGoto | ret => rfl

/-- Behind the beginning of a function, commands are inside a function. -/
theorem function_after (h : command.WellNamed)
    (hfunction : IsFunctionName c.function ∨ ∃ name locals, command = .function name locals) :
    IsFunctionName (c.after command).function := by
  rcases hfunction with hfunction | ⟨name, locals, rfl⟩
  · cases command with
    | function name locals => exact h.function name locals rfl
    | arith op => cases op <;> exact hfunction
    | label | call | push | pop | goto | ifGoto | ret => exact hfunction
  · exact h.function name locals rfl

theorem proper_labels (hunit : '$' ∉ c.unit.toList) (h : command.WellNamed)
    (hfunction : IsFunctionName c.function ∨ ∃ name locals, command = .function name locals) :
    ∀ x ∈ c.labels command, x.Proper := by
  rcases hfunction with hfunction | ⟨name, locals, rfl⟩
  · cases command with
    | function name locals => exact List.forall_mem_singleton.mpr (h.function name locals rfl)
    | arith op => cases op <;> simp [labels, Label.Proper, hunit]
    | label name => exact List.forall_mem_singleton.mpr ⟨hfunction, h.label name rfl⟩
    | call name args => exact List.forall_mem_singleton.mpr (.inr hfunction)
    | push | pop | goto | ifGoto | ret => exact fun x hx => absurd hx List.not_mem_nil
  · exact List.forall_mem_singleton.mpr (h.function name locals rfl)

/-- **The labels of well-named commands are proper.** -/
theorem proper_labelsOf (hunit : '$' ∉ c.unit.toList) (h : ∀ command ∈ commands, command.WellNamed)
    (hfunction : IsFunctionName c.function ∨ BeginsFunction commands) :
    ∀ x ∈ c.labelsOf commands, x.Proper := by
  induction commands generalizing c with
  | nil => exact fun x hx => absurd hx List.not_mem_nil
  | cons command rest ih =>
    obtain ⟨hcommand, hrest⟩ := List.forall_mem_cons.mp h
    -- Only the first command may stand outside of a function; behind it the left case holds.
    have hfirst : IsFunctionName c.function ∨ ∃ name locals, command = .function name locals :=
      hfunction.imp_right fun hbegins => hbegins command rfl
    refine List.forall_mem_append.mpr ⟨proper_labels hunit hcommand hfirst, ih ?_ hrest (.inl ?_)⟩
    · rwa [unit_after]
    · exact function_after hcommand hfirst

end Context

/-! ### Several units -/

namespace Context

variable {c : Context} {settings : Settings} {parts : List Part}

/-- The context in front of the commands of a unit. -/
def enter (c : Context) (unit : String) : Context := { c with unit }

/-- The context behind a unit. -/
def afterPart (c : Context) (p : Part) : Context := (c.enter p.unit).afterAll p.commands

/-- The lines of units, where the context is `c` in front of them. -/
def partsCode (settings : Settings) (c : Context) : List Part → List Line
  | [] => []
  | p :: rest =>
    (c.enter p.unit).code settings p.commands ++ (c.afterPart p).partsCode settings rest

/-- The labels that units declare, where the context is `c` in front of them. -/
def partsLabels (c : Context) : List Part → List Label
  | [] => []
  | p :: rest => (c.enter p.unit).labelsOf p.commands ++ (c.afterPart p).partsLabels rest

theorem notBehind_enter (unit : String) : c.NotBehind (c.enter unit) :=
  ⟨Nat.le_refl _, Nat.le_refl _⟩

theorem notBehind_afterPart (p : Part) : c.NotBehind (c.afterPart p) :=
  (notBehind_enter _).trans notBehind_afterAll

theorem notBehind_afterParts (parts : List Part) : c.NotBehind (parts.foldl afterPart c) := by
  induction parts generalizing c with
  | nil => exact .refl c
  | cons p rest ih => exact (notBehind_afterPart p).trans ih

theorem between_partsLabels : ∀ x ∈ c.partsLabels parts, x.Between c (parts.foldl afterPart c) := by
  induction parts generalizing c with
  | nil => exact fun x hx => absurd hx List.not_mem_nil
  | cons p rest ih =>
    intro x hx
    rcases List.mem_append.mp hx with hx | hx
    · exact (between_labelsOf x hx).mono (notBehind_enter _) (notBehind_afterParts rest)
    · exact (ih x hx).mono (notBehind_afterPart p) (.refl _)

/-- **The labels of units are different** if those are that their commands name. -/
theorem nodup_partsLabels (h : ((c.partsLabels parts).filter Label.isNamed).Nodup) :
    (c.partsLabels parts).Nodup := by
  induction parts generalizing c with
  | nil => exact List.nodup_nil
  | cons p rest ih =>
    have hparts := h
    rw [partsLabels, List.filter_append] at hparts
    obtain ⟨hfirst, hrest, -⟩ := List.nodup_append.mp hparts
    exact nodup_append_of_between between_labelsOf between_partsLabels (nodup_labelsOf hfirst)
      (ih hrest) h

theorem proper_partsLabels (h : ∀ p ∈ parts, p.Sound) : ∀ x ∈ c.partsLabels parts, x.Proper := by
  induction parts generalizing c with
  | nil => exact fun x hx => absurd hx List.not_mem_nil
  | cons p rest ih =>
    obtain ⟨hp, hrest⟩ := List.forall_mem_cons.mp h
    exact List.forall_mem_append.mpr ⟨proper_labelsOf hp.dollar hp.wellNamed (.inr hp.begins),
      ih hrest⟩

theorem labels_of_partsCode (h : ∀ p ∈ parts, p.Sound) :
    (c.partsCode settings parts).filterMap Line.label? = (c.partsLabels parts).map Label.text := by
  induction parts generalizing c with
  | nil => rfl
  | cons p rest ih =>
    obtain ⟨hp, hrest⟩ := List.forall_mem_cons.mp h
    have hproper := proper_labelsOf (c := c.enter p.unit) hp.dollar hp.wellNamed (.inr hp.begins)
    rw [partsCode, partsLabels, List.filterMap_append, labels_of_code hp.translatable hproper,
      ih hrest, List.map_append]

theorem constants_of_partsCode (h : ∀ p ∈ parts, p.Sound) :
    (c.partsCode settings parts).filterMap Line.constant? =
      parts.flatMap fun p => p.commands.flatMap Command.constants := by
  induction parts generalizing c with
  | nil => rfl
  | cons p rest ih =>
    obtain ⟨hp, hrest⟩ := List.forall_mem_cons.mp h
    rw [partsCode, List.filterMap_append, constants_of_code hp.translatable, ih hrest,
      List.flatMap_cons]

end Context

/-! ### What stands around units -/

namespace Translator

variable {settings : Settings}

/-- The labels in front of the first unit. -/
def setupLabels (settings : Settings) : List Label :=
  if settings.bootstrap then [.returning "" 0] else []

theorem between_setupLabels : ∀ x ∈ setupLabels settings, x.Between {} (new settings).context := by
  unfold new setupLabels
  split <;> simp [Context.after, Label.Between]

theorem lines_new :
    (new settings).lines.toList.filterMap Line.label? = (setupLabels settings).map Label.text ∧
      ∀ n ∈ (new settings).lines.toList.filterMap Line.constant?, n ≤ maxConstant := by
  obtain ⟨bootstrap, comments, endLoop⟩ := settings
  cases bootstrap <;> cases comments <;> cases endLoop <;> exact ⟨rfl, by decide⟩

theorem lines_ending :
    (ending settings).filterMap Line.label? = (if settings.endLoop then ["END"] else []) ∧
      (ending settings).filterMap Line.constant? = [] := by
  unfold ending
  split <;> exact ⟨rfl, rfl⟩

/-- **A unit that can be translated.** -/
theorem translateUnit_of_translatable (t : Translator) (unit : String) {commands : List Command}
    (hnamed : ∀ c ∈ commands, c.WellNamed) (h : ∀ c ∈ commands, c.Translatable) :
    ∃ t', t.translateUnit unit (programText commands) = (.ok (), t') ∧ t'.settings = t.settings ∧
      t'.context = (t.beginUnit unit).context.afterAll commands ∧
      t'.lines.toList = t.lines.toList ++ (t.beginUnit unit).context.code t.settings commands := by
  have hread := readProgram_programText fun c hc => (hnamed c hc).isName
  have hcommands := map_numberedFrom 1 commands
  have htranslatable : ∀ l ∈ numberedFrom 1 commands, l.command.Translatable := by
    intro l hl
    refine h _ ?_
    rw [← hcommands]
    exact List.mem_map_of_mem hl
  obtain ⟨t', hall, hsettings, hcontext, hlines⟩ :=
    writeAll_of_translatable (t := t.beginUnit unit) htranslatable
  rw [hcommands] at hcontext hlines
  refine ⟨t', ?_, hsettings, hcontext, hlines⟩
  unfold translateUnit
  rw [hread]
  exact hall

/-- **Units that can be translated**, one behind the other. -/
theorem translateUnits_of_sound {t : Translator} {parts : List Part} (h : ∀ p ∈ parts, p.Sound) :
    ((parts.map Part.source).foldl (fun t u => (t.translateUnit u.1 u.2).2) t).lines.toList =
      t.lines.toList ++ t.context.partsCode t.settings parts := by
  induction parts generalizing t with
  | nil => exact (List.append_nil _).symm
  | cons p rest ih =>
    obtain ⟨hp, hrest⟩ := List.forall_mem_cons.mp h
    obtain ⟨t', htranslate, hsettings, hcontext, hlines⟩ :=
      translateUnit_of_translatable t p.unit hp.wellNamed hp.translatable
    have hsource : t.translateUnit p.source.1 p.source.2 = (.ok (), t') := htranslate
    rw [List.map_cons, List.foldl_cons, hsource, ih hrest, hlines, hsettings, hcontext,
      List.append_assoc]
    rfl

theorem program_of_sound {parts : List Part} (h : ∀ p ∈ parts, p.Sound) :
    program settings (parts.map Part.source) =
      (new settings).lines.toList ++ (new settings).context.partsCode settings parts
        ++ ending settings := by
  have hlines := translateUnits_of_sound (t := new settings) h
  have hsettings := (goesOn_units (new settings) (parts.map Part.source)).1
  rw [settings_new] at hlines hsettings
  unfold program ofUnits
  rw [hlines, hsettings]

theorem namesAreSymbols_of_sound {parts : List Part} (h : ∀ p ∈ parts, p.Sound) :
    NamesAreSymbols (parts.map Part.source) := by
  intro u hu
  obtain ⟨p, hp, rfl⟩ := List.mem_map.mp hu
  refine ⟨(h p hp).isSymbol, fun program hread l hl => ?_⟩
  have htext := readProgram_programText fun c hc => ((h p hp).wellNamed c hc).isName
  obtain rfl := Except.ok.inj (hread.symm.trans htext)
  refine ((h p hp).wellNamed l.command ?_).isSymbol
  rw [← map_numberedFrom 1 p.commands]
  exact List.mem_map_of_mem hl

end Translator

/-! ### Assembling a program -/

open Translator

section
variable {settings : Settings} {parts : List Part}

/-- The labels of a program, apart from the one at its end. -/
def programLabels (settings : Settings) (parts : List Part) : List Label :=
  setupLabels settings ++ (new settings).context.partsLabels parts

theorem proper_programLabels (h : ∀ p ∈ parts, p.Sound) :
    ∀ x ∈ programLabels settings parts, x.Proper := by
  refine List.forall_mem_append.mpr ⟨?_, Context.proper_partsLabels h⟩
  unfold setupLabels
  split
  · exact List.forall_mem_singleton.mpr (.inl rfl)
  · exact fun x hx => absurd hx List.not_mem_nil

theorem nodup_programLabels
    (hdistinct : (((new settings).context.partsLabels parts).filter Label.isNamed).Nodup) :
    (programLabels settings parts).Nodup := by
  have hsetup : (setupLabels settings).Nodup ∧
      (setupLabels settings).filter Label.isNamed = [] := by
    unfold setupLabels
    split <;> simp [Label.isNamed]
  refine nodup_append_of_between between_setupLabels Context.between_partsLabels hsetup.1
    (Context.nodup_partsLabels hdistinct) ?_
  rwa [List.filter_append, hsetup.2, List.nil_append]

/-- **The labels of a program.** -/
theorem labelsOf_program (h : ∀ p ∈ parts, p.Sound) :
    (program settings (parts.map Part.source)).filterMap Line.label? =
      (programLabels settings parts).map Label.text ++ if settings.endLoop then ["END"]
        else [] := by
  rw [program_of_sound h, List.filterMap_append, List.filterMap_append, lines_new.1, lines_ending.1,
    Context.labels_of_partsCode h, ← List.map_append]
  rfl

/-- **A program is assembled if and only if the operands of its commands can be loaded.** -/
theorem exists_assemble_program_iff (h : ∀ p ∈ parts, p.Sound)
    (hdistinct : (((new settings).context.partsLabels parts).filter Label.isNamed).Nodup) :
    (∃ rom, assemble (linesText (program settings (parts.map Part.source))) = .ok rom) ↔
      ∀ p ∈ parts, ∀ c ∈ p.commands, c.Loadable := by
  -- Three things are asked of the lines: their labels, their constants, and that they can be
  -- printed.
  have hproper : ∀ x ∈ programLabels settings parts, x.Proper := proper_programLabels h
  have hlabels := nodup_texts hproper (nodup_programLabels hdistinct) settings.endLoop
  have hconstants : (∀ n ∈ (program settings (parts.map Part.source)).filterMap Line.constant?,
      n ≤ maxConstant) ↔ ∀ p ∈ parts, ∀ c ∈ p.commands, c.Loadable := by
    rw [program_of_sound h, List.filterMap_append, List.filterMap_append, lines_ending.2,
      List.append_nil, Context.constants_of_partsCode h, List.forall_mem_append,
      List.forall_mem_flatMap]
    simp only [List.forall_mem_flatMap]
    exact and_iff_right lines_new.2
  rw [← labelsOf_program h] at hlabels
  rw [← hconstants]
  exact exists_assemble_iff (printable_program (namesAreSymbols_of_sound h)) hlabels.1 hlabels.2

end

/-- A program of one unit. -/
theorem exists_assemble_translate_iff (settings : Settings) {p : Part} (h : p.Sound)
    (hdistinct : (((new settings).context.partsLabels [p]).filter Label.isNamed).Nodup) :
    ∃ asm, translate p.unit (programText p.commands) settings = .ok asm ∧
      ((∃ rom, assemble asm = .ok rom) ↔ ∀ c ∈ p.commands, c.Loadable) := by
  obtain ⟨t, htranslate, -⟩ :=
    translateUnit_of_translatable (new settings) p.unit h.wellNamed h.translatable
  refine ⟨t.finish, ?_, ?_⟩
  · unfold translate
    rw [htranslate]
  · have hprogram : t.finish = linesText (program settings [p.source]) := by
      have hsource : (new settings).translateUnit p.source.1 p.source.2 = (.ok (), t) := htranslate
      unfold program ofUnits
      rw [List.foldl_cons, List.foldl_nil, hsource]
      rfl
    rw [hprogram, ← List.map_singleton,
      exists_assemble_program_iff (List.forall_mem_singleton.mpr h) hdistinct,
      List.forall_mem_singleton]

end JackToolchain.VM
