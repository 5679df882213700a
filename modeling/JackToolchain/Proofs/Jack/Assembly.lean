import JackToolchain.Jack.Compiler
import JackToolchain.Proofs.Jack.Correctness
import JackToolchain.Proofs.Jack.Operands

/-!
# What compiles can be assembled

The stages behind the compiler accept what it writes: every command can be translated, and the
program that comes of it is assembled unless an instruction would have to load a constant that is
out of range.  Whether there is such a constant can be told from the class (`assembled_iff_fits`).
A character of a string is enough for it (`not_assembled_ideograph`): the units of characters are
words, and half of the words are no constants.

Nothing else can go wrong.  The names of functions and the labels inside them are symbols, and they
are declared once if the subroutines have different names (`nodup_named`).  The labels of the
translator differ from them and from each other.
-/

namespace JackToolchain.Jack

open Hack (assemble)
open VM (BeginsFunction Command Context Label Part Settings translate programText declaredLabels
    declaredLabels_append)

/-! ### Labels of a class -/

section
variable {context : Context} {c : Class} {outer : Scope} {n : Nat}

theorem function_after_of_inner {command : Command} (h : inner command = true) :
    (context.after command).function = context.function := by
  cases command with
  | arith op => cases op <;> rfl
  | function => cases h
  | push | pop | label | goto | ifGoto | call | ret => rfl

/-- Inside a function, the labels that commands name are the labels that they declare. -/
theorem named_of_inner {commands : List Command} (h : commands.all inner = true) :
    (context.labelsOf commands).filter Label.isNamed =
      (declaredLabels commands).map (.inside context.function) := by
  induction commands generalizing context with
  | nil => rfl
  | cons command rest ih =>
    rw [List.all_cons, Bool.and_eq_true] at h
    have hfirst : (context.labels command).filter Label.isNamed =
        (declaredLabels [command]).map (.inside context.function) := by
      cases command with
      | arith op => cases op <;> rfl
      | function => cases h.1
      | push | pop | label | goto | ifGoto | call | ret => rfl
    rw [Context.labelsOf, List.filter_append, hfirst, ih h.2,
      function_after_of_inner h.1, ← List.map_append, ← declaredLabels_append]
    rfl

/-- Behind its first command, the code of a subroutine begins no function. -/
theorem Subroutine.inner_body (s : Subroutine) :
    (s.kind.setupCode (c.fieldCount outer) ++ statementsCode (s.naming c outer) n s.body).all
      inner = true := by
  rw [List.all_append, inner_of_straight (s.kind.straight_setupCode _), inner_statementsCode]
  rfl

/-- The labels of a subroutine that its code names. -/
theorem Subroutine.named_code (s : Subroutine) :
    (context.labelsOf (s.code c outer n)).filter Label.isNamed =
      .function (c.name.name ++ "." ++ s.name.name) ::
        (declaredLabels (s.code c outer n)).map (.inside (c.name.name ++ "." ++ s.name.name)) := by
  rw [Subroutine.code, Context.labelsOf, List.filter_append, named_of_inner s.inner_body]
  rfl

variable {x : Label}

theorem Subroutine.owner_of_mem_named {s : Subroutine}
    (hx : x ∈ (context.labelsOf (s.code c outer n)).filter Label.isNamed) :
    x.owner = c.name.name ++ "." ++ s.name.name := by
  rw [s.named_code] at hx
  rcases List.mem_cons.mp hx with rfl | hx
  · rfl
  · obtain ⟨l, -, rfl⟩ := List.mem_map.mp hx
    rfl

theorem owner_of_mem_named {subroutines : List Subroutine}
    (hx : x ∈ (context.labelsOf (subroutineCodes c outer n subroutines).flatten).filter
      Label.isNamed) :
    ∃ s ∈ subroutines, x.owner = c.name.name ++ "." ++ s.name.name := by
  induction subroutines generalizing context n with
  | nil => cases hx
  | cons s rest ih =>
    rw [subroutineCodes, List.flatten_cons, Context.labelsOf_append, List.filter_append,
      List.mem_append] at hx
    rcases hx with hx | hx
    · exact ⟨s, List.mem_cons_self, s.owner_of_mem_named hx⟩
    · obtain ⟨s', hs', howner⟩ := ih hx
      exact ⟨s', List.mem_cons_of_mem s hs', howner⟩

/-- **The labels of a class are different** if its subroutines have different names. -/
theorem nodup_named {subroutines : List Subroutine}
    (h : (subroutines.map fun s => s.name.name).Nodup) :
    ((context.labelsOf (subroutineCodes c outer n subroutines).flatten).filter
      Label.isNamed).Nodup := by
  induction subroutines generalizing context n with
  | nil => exact List.nodup_nil
  | cons s rest ih =>
    obtain ⟨hs, hrest⟩ := List.nodup_cons.mp h
    rw [subroutineCodes, List.flatten_cons, Context.labelsOf_append, List.filter_append,
      List.nodup_append]
    -- Inside a subroutine the numbers differ, and between two of them the owners.
    refine ⟨?_, ih hrest, ?_⟩
    · rw [s.named_code, List.nodup_cons]
      refine ⟨fun hmem => ?_, s.nodup_declaredLabels.map fun x y hxy => (Label.inside.inj hxy).2⟩
      obtain ⟨l, -, hl⟩ := List.mem_map.mp hmem
      cases hl
    · rintro x hx y hy rfl
      obtain ⟨s', hs', howner⟩ := owner_of_mem_named hy
      rw [s.owner_of_mem_named hx, String.append_right_inj] at howner
      exact hs (List.mem_map.mpr ⟨s', hs', howner.symm⟩)

end

/-! ### Assembling a class -/

section
variable {c : Class} {outer : Scope} {n : Nat}

theorem beginsFunction_subroutineCodes (subroutines : List Subroutine) :
    BeginsFunction (subroutineCodes c outer n subroutines).flatten := by
  cases subroutines with
  | nil => exact nofun
  | cons s rest =>
    rintro command ⟨⟩
    exact ⟨_, _, rfl⟩

/-- The commands of a class, under the name of the class. -/
def Class.part (c : Class) : Part :=
  ⟨c.name.name, (subroutineCodes c .empty 0 c.subroutines).flatten⟩

/-- Before a class no names are known, so none of them has a type that is no identifier. -/
theorem isIdentifier_type_of_lookup_empty (x : String) (v : Variable)
    (h : Scope.empty.lookup x = some v) : IsIdentifier v.type.toList := by
  rw [Scope.lookup_empty] at h
  cases h

/-- The commands of a well-spelled class can be translated. -/
theorem Class.sound_part (hc : c.Spelled) : c.part.Sound := by
  have hsound := sound_subroutineCodes (n := 0) hc isIdentifier_type_of_lookup_empty fun s hs => hs
  exact
    { isSymbol := isSymbol_of_isIdentifier hc.name.isIdentifier
      dollar := dollar_notMem_of_isIdentifier hc.name.isIdentifier
      wellNamed := fun command hcommand => (hsound command hcommand).wellNamed
      translatable := fun command hcommand => (hsound command hcommand).translatable
      begins := beginsFunction_subroutineCodes _ }

/-- **The code of a well-spelled class is assembled if and only if its operands fit.** -/
theorem Class.exists_assemble_iff {g : Generator} (hc : c.Spelled)
    (h : (Generator.new .unlimited).compile c = (.ok (), g))
    (hdistinct : (c.subroutines.map fun s => s.name.name).Nodup) (settings : Settings) :
    ∃ asm, translate c.name.name (programText g.sink.commands.toList) settings = .ok asm ∧
      ((∃ rom, assemble asm = .ok rom) ↔ c.Fits .empty) := by
  have hfields : c.fieldCount .empty ≤ Word.maxNat :=
    Class.fieldCount_le_of_compile h (Nat.zero_le _)
  obtain ⟨hgenerable, hcommands⟩ := Class.commands_of_compile h
  have hcode : g.sink.commands.toList = c.part.commands := hcommands
  have hnamed :
      (((VM.Translator.new settings).context.partsLabels [c.part]).filter Label.isNamed).Nodup := by
    rw [Context.partsLabels, Context.partsLabels, List.append_nil]
    exact nodup_named hdistinct
  rw [hcode, Class.Fits, ← loadable_subroutineCodes hfields hc.subroutines hgenerable]
  exact VM.exists_assemble_translate_iff settings (Class.sound_part hc) hnamed

end

theorem run_of_compile {source output : String} {c : Class} (hparse : parseUnit source = .ok c)
    (h : compile .vm source = .ok output) :
    ∃ g, (Generator.new .unlimited).compile c = (.ok (), g) ∧
      output = programText g.sink.commands.toList := by
  unfold compile compileWithRecords Compilation.ofCommands at h
  rw [hparse] at h
  dsimp only at h
  cases hrun : (Generator.new .unlimited).compile c with
  | mk result g =>
    rw [hrun] at h
    cases result with
    | error e => cases h
    | ok =>
      cases h
      exact ⟨g, rfl, rfl⟩

theorem exists_class_of_compile {source output : String} (h : compile .vm source = .ok output) :
    ∃ c, parseUnit source = .ok c := by
  unfold compile compileWithRecords Compilation.ofCommands at h
  cases hparse : parseUnit source with
  | error e =>
    rw [hparse] at h
    cases h
  | ok c => exact ⟨c, rfl⟩

theorem exists_output {source : String} (h : (compile .vm source).toOption.isSome = true) :
    ∃ output, compile .vm source = .ok output := by
  cases houtput : compile .vm source with
  | error e =>
    rw [houtput] at h
    cases h
  | ok output => exact ⟨output, rfl⟩

/-! ### Classes that return a literal -/

/-- The literal that the only subroutine of a class returns, if the class is a function that does
only that. -/
def Class.returned? (c : Class) : Option Literal :=
  match c.subroutines with
  | [⟨.function, _, _, _, _, [.return (some (.mk (.literal value) []))]⟩] => some value
  | _ => none

section
variable {c : Class} {value : Literal} {outer : Scope}

theorem Class.nodup_of_returned? (h : c.returned? = some value) :
    (c.subroutines.map fun s => s.name.name).Nodup := by
  unfold Class.returned? at h
  split at h
  · next hsub =>
    rw [hsub]
    exact List.nodup_singleton _
  · cases h

theorem Class.fits_iff_of_returned? (h : c.returned? = some value) : c.Fits outer ↔ value.Fits := by
  unfold Class.returned? at h
  split at h
  · next hsub =>
    cases h
    rw [Class.Fits, hsub, List.forall_mem_singleton, AllFit, AllFit, Statement.Fits, Expr.Fits,
      OperandsFit, Term.Fits, and_true, and_true]
    exact and_iff_right nofun
  · cases h

end

/-- A class that returns a literal is found in the source that it is compiled from. -/
theorem exists_compiled {source : String} {value : Literal}
    (hvalue : (parseUnit source).toOption.bind Class.returned? = some value)
    (hcompiles : (compile .vm source).toOption.isSome = true) :
    ∃ c output, parseUnit source = .ok c ∧ compile .vm source = .ok output ∧
      c.returned? = some value := by
  cases hparse : parseUnit source with
  | error e =>
    rw [hparse] at hvalue
    cases hvalue
  | ok c =>
    rw [hparse] at hvalue
    obtain ⟨output, houtput⟩ := exists_output hcompiles
    exact ⟨c, output, rfl, houtput, hvalue⟩

/-! ### What compiles -/

/-- **What compiles is translated, and it is assembled if and only if its operands fit**, as long as
no two subroutines have one name. -/
theorem assembled_iff_fits {source output : String} (h : compile .vm source = .ok output) :
    ∃ c, parseUnit source = .ok c ∧ ((c.subroutines.map fun s => s.name.name).Nodup → ∀ settings,
      ∃ asm, translate c.name.name output settings = .ok asm ∧
      ((∃ rom, assemble asm = .ok rom) ↔ c.Fits .empty)) := by
  obtain ⟨c, hparse⟩ := exists_class_of_compile h
  obtain ⟨g, hrun, rfl⟩ := run_of_compile hparse h
  exact ⟨c, hparse, fun hdistinct settings =>
    Class.exists_assemble_iff (spelled_of_parseUnit hparse) hrun hdistinct settings⟩

/-- A source with a small constant. -/
def sevenSource : String := "class Main \x7b function int f() \x7b return 7; \x7d \x7d"

/-- A small constant fits. -/
theorem assembled_iff_fits_seven : ∃ c output,
    parseUnit sevenSource = .ok c ∧ compile .vm sevenSource = .ok output ∧
      (c.subroutines.map fun s => s.name.name).Nodup ∧
      ∀ settings, ∃ asm rom, translate c.name.name output settings = .ok asm ∧
      assemble asm = .ok rom := by
  have hvalue : (parseUnit sevenSource).toOption.bind Class.returned? = some (.int 7 "7") := by
    decide +kernel
  have hcompiles : (compile .vm sevenSource).toOption.isSome = true := by decide +kernel
  obtain ⟨c, output, hparse, houtput, hvalue⟩ := exists_compiled hvalue hcompiles
  have hdistinct := Class.nodup_of_returned? hvalue
  refine ⟨c, output, hparse, houtput, hdistinct, fun settings => ?_⟩
  obtain ⟨c', hparse', hall⟩ := assembled_iff_fits houtput
  obtain rfl : c = c' := Except.ok.inj (hparse.symm.trans hparse')
  obtain ⟨asm, hasm, hiff⟩ := hall hdistinct settings
  obtain ⟨rom, hrom⟩ := hiff.mpr ((Class.fits_iff_of_returned? hvalue).mpr trivial)
  exact ⟨asm, rom, hasm, hrom⟩

/-- A source with a character the unit of which is not a constant. -/
def ideographSource : String := "class Main \x7b function String f() \x7b return \"語\"; \x7d \x7d"

/-- The character does not fit: what compiles is not assembled. -/
theorem not_assembled_ideograph : ∃ c output,
    parseUnit ideographSource = .ok c ∧ compile .vm ideographSource = .ok output ∧
      (c.subroutines.map fun s => s.name.name).Nodup ∧
      ∀ settings, ∃ asm, translate c.name.name output settings = .ok asm ∧
      ¬ ∃ rom, assemble asm = .ok rom := by
  have hvalue : (parseUnit ideographSource).toOption.bind Class.returned? =
      some (.string "語" ⟨42, 47, 1, 43⟩) := by
    decide +kernel
  have hcompiles : (compile .vm ideographSource).toOption.isSome = true := by decide +kernel
  obtain ⟨c, output, hparse, houtput, hvalue⟩ := exists_compiled hvalue hcompiles
  have hdistinct := Class.nodup_of_returned? hvalue
  have hunits : Text.units "語" = [35486] := rfl
  have hfits : ¬ c.Fits .empty := by
    rw [Class.fits_iff_of_returned? hvalue, Literal.Fits, hunits, List.forall_mem_singleton]
    exact fun h => absurd h.2 (by decide)
  obtain ⟨g, hrun, rfl⟩ := run_of_compile hparse houtput
  refine ⟨c, _, hparse, houtput, hdistinct, fun settings => ?_⟩
  obtain ⟨asm, hasm, hiff⟩ :=
    Class.exists_assemble_iff (spelled_of_parseUnit hparse) hrun hdistinct settings
  exact ⟨asm, hasm, fun hrom => hfits (hiff.mp hrom)⟩

end JackToolchain.Jack
