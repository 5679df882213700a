import JackToolchain.Proofs.Hack.Reference
import JackToolchain.Proofs.VM.Machine
import JackToolchain.Proofs.VM.TranslatedProgram

/-!
# The symbols that a translated program uses

A block loads the addresses of symbols: of registers, of the labels that it declares itself, of
static variables, of functions that are called, and of labels that a command jumps to.  The labels
that commands jump to are collected here next to those that they declare (`Context.targetsOf`).
Every symbol that a program loads is one of these (`refers_of_program`), so a program whose jumps go
to labels that it declares uses no others.
-/

namespace JackToolchain.Hack

/-- The predefined symbols of the registers, which are the cells in front of the variables. -/
def registerNames : List String := (predefinedSymbols.filter fun s => s.2 < variableStart).map (·.1)

end JackToolchain.Hack

namespace JackToolchain.VM

open Hack Block

/-- The symbol of a static variable of a unit. -/
def staticSymbol (unit : String) (index : Word) : String := unit ++ "." ++ index.decimal

/-- **What a symbol refers to**: to a register, to one of some labels, to a static variable of one
of some units, or to a function that one of some commands calls. -/
inductive Refers (units labels : List String) (commands : List Command) : String → Prop
  | register {name : String} : name ∈ registerNames → Refers units labels commands name
  | label {name : String} : name ∈ labels → Refers units labels commands name
  | static {unit : String} (index : Word) : unit ∈ units →
    Refers units labels commands (staticSymbol unit index)
  | function {name : String} {args : Word} : .call name args ∈ commands →
    Refers units labels commands name

namespace Refers

variable {units units' labels labels' : List String} {commands commands' : List Command}
  {name : String}

theorem mono (h : Refers units labels commands name) (hunits : units ⊆ units')
    (hlabels : labels ⊆ labels') (hcommands : commands ⊆ commands') :
    Refers units' labels' commands' name := by
  cases h with
  | register h => exact .register h
  | label h => exact .label (hlabels h)
  | static index h => exact .static index (hunits h)
  | function h => exact .function (hcommands h)

theorem of_registers (names : List String) (h : ∀ name ∈ names, name ∈ registerNames) :
    ∀ name ∈ names, Refers units labels commands name := fun name hname => .register (h name hname)

end Refers

/-! ### Jumps -/

namespace Context

/-- The assembly name of the label that a command jumps to. -/
def targets (c : Context) (command : Command) : List String :=
  (command.target?.map c.scopedLabel).toList

/-- The assembly names of the labels that commands jump to, where the context is `c` in front of
them. -/
def targetsOf (c : Context) : List Command → List String
  | [] => []
  | command :: rest => c.targets command ++ (c.after command).targetsOf rest

/-- The assembly names of the labels that units jump to, where the context is `c` in front of
them. -/
def partsTargets (c : Context) : List Part → List String
  | [] => []
  | p :: rest => (c.enter p.unit).targetsOf p.commands ++ (c.afterPart p).partsTargets rest

variable {c : Context} {settings : Settings} {command : Command} {commands : List Command}
  {parts : List Part} {block : List Line} {segment : Segment} {index : Word}

theorem targetsOf_append (xs ys : List Command) :
    c.targetsOf (xs ++ ys) = c.targetsOf xs ++ (c.afterAll xs).targetsOf ys := by
  induction xs generalizing c with
  | nil => rfl
  | cons command rest ih =>
    rw [List.cons_append, targetsOf, targetsOf, ih, List.append_assoc]
    rfl

/-! ### Symbols of blocks -/

theorem refers_of_access {found : Access} {labels : List String}
    (h : c.access segment index = .ok found) :
    ∀ name ∈ found.symbol?, Refers [c.unit] labels commands name := by
  intro name hname
  cases segment with
  | constant => cases h; cases hname
  | locals | argument | this | that =>
    cases h
    cases hname
    exact .register (by decide)
  | statics =>
    cases h
    cases hname
    exact .static index (List.mem_singleton_self _)
  | temp =>
    have htemp : ∀ n < tempSize, "R" ++ toString (tempBase + n) ∈ registerNames := by decide
    unfold access at h
    dsimp only at h
    split at h
    · next hindex =>
      cases h
      cases hname
      exact .register (htemp _ hindex)
    · cases h
  | pointer =>
    unfold access at h
    dsimp only at h
    split at h
    · cases h
      cases hname
      split <;> exact .register (by decide)
    · cases h

/-- A call goes to the function and has its own place to return to. -/
theorem refers_of_callBlock {units : List String} (name : String) (args : Word) :
    ∀ x ∈ (c.callBlock name args).filterMap Line.symbol?,
      Refers units (Hack.labelsOf (c.callBlock name args)) [.call name args] x := by
  have hlabels : Hack.labelsOf (c.callBlock name args) = [c.returnLabel] := rfl
  have hsymbols : (c.callBlock name args).filterMap Line.symbol? =
      c.returnLabel :: (["SP", "SP", "LCL", "SP", "SP", "ARG", "SP", "SP", "THIS", "SP", "SP",
        "THAT", "SP", "SP", "SP", "ARG", "SP", "LCL"] ++ [name]) := rfl
  rw [hsymbols, hlabels]
  refine List.forall_mem_cons.mpr ⟨.label List.mem_cons_self, List.forall_mem_append.mpr ⟨?_, ?_⟩⟩
  · exact Refers.of_registers _ (by decide)
  · exact List.forall_mem_singleton.mpr (.function List.mem_cons_self)

theorem refers_of_pushBlock {labels : List String} {commands : List Command}
    (h : c.pushBlock segment index = .ok block) :
    ∀ name ∈ block.filterMap Line.symbol?, Refers [c.unit] labels commands name := by
  obtain ⟨found, hfound, hblock⟩ := access_of_pushBlock h
  have hsymbol : ∀ name ∈ found.symbol?, Refers [c.unit] labels commands name :=
    refers_of_access hfound
  cases found with
  | immediate =>
    cases hblock
    exact Refers.of_registers ["SP", "SP"] (by decide)
  | indirect name | direct name =>
    cases hblock
    exact List.forall_mem_cons.mpr ⟨hsymbol name rfl,
      Refers.of_registers ["SP", "SP"] (by decide)⟩

theorem refers_of_popBlock {labels : List String} {commands : List Command}
    (h : c.popBlock segment index = .ok block) :
    ∀ name ∈ block.filterMap Line.symbol?, Refers [c.unit] labels commands name := by
  obtain ⟨found, hfound, hblock⟩ := access_of_popBlock h
  have hsymbol : ∀ name ∈ found.symbol?, Refers [c.unit] labels commands name :=
    refers_of_access hfound
  cases found with
  | immediate => cases hblock
  | indirect base =>
    cases hblock
    exact List.forall_mem_cons.mpr ⟨hsymbol base rfl,
      Refers.of_registers ["R13", "SP", "R13"] (by decide)⟩
  | direct symbol =>
    cases hblock
    exact List.forall_mem_cons.mpr ⟨.register (by decide),
      List.forall_mem_singleton.mpr (hsymbol symbol rfl)⟩

/-- A comparison loads its two labels between popping two words and pushing one. -/
theorem refers_of_compareBlock {units : List String} {commands : List Command} (j : Jump) :
    ∀ name ∈ (c.compareBlock j).filterMap Line.symbol?,
      Refers units (Hack.labelsOf (c.compareBlock j)) commands name := by
  have hsymbols : (c.compareBlock j).filterMap Line.symbol? =
      ["SP", "SP"] ++ ([c.trueLabel, c.endLabel] ++ ["SP", "SP"]) := rfl
  rw [hsymbols]
  refine List.forall_mem_append.mpr ⟨Refers.of_registers _ (by decide),
    List.forall_mem_append.mpr ⟨?_, ?_⟩⟩
  · intro name hname
    exact .label hname
  · exact Refers.of_registers _ (by decide)

/-- A function declares its label and loads nothing but the stack pointer. -/
theorem refers_of_functionBlock {units labels : List String} {commands : List Command}
    (name : String) (locals : Word) :
    ∀ x ∈ (functionBlock name locals).filterMap Line.symbol?, Refers units labels commands x := by
  intro x hx
  obtain ⟨l, hl, hx⟩ := List.mem_filterMap.mp hx
  have hzero : ∀ l ∈ pushZero, ∀ x ∈ l.symbol?, x ∈ registerNames := by decide
  rcases List.mem_cons.mp hl with rfl | hl
  · cases hx
  · obtain ⟨zero, hmem, hl⟩ := List.mem_flatten.mp hl
    rw [List.eq_of_mem_replicate hmem] at hl
    exact .register (hzero l hl x hx)

/-- **The symbols of a block.** -/
theorem refers_of_block (h : c.block command = .ok block) :
    ∀ name ∈ block.filterMap Line.symbol?, Refers
      [c.unit] (Hack.labelsOf block ++ c.targets command) [command] name := by
  cases command with
  | push segment index => exact refers_of_pushBlock h
  | pop segment index => exact refers_of_popBlock h
  | arith op =>
    have hcompare (j : Jump) : ∀ name ∈ (c.compareBlock j).filterMap Line.symbol?,
        Refers [c.unit] (Hack.labelsOf (c.compareBlock j) ++ []) [.arith op] name := by
      rw [List.append_nil]
      exact refers_of_compareBlock j
    cases h
    cases op with
    | eq | gt | lt => exact hcompare _
    | neg | not | add | sub | and | or => exact Refers.of_registers ["SP"] (by decide)
  | label name =>
    cases h
    exact fun x hx => absurd hx List.not_mem_nil
  | goto name =>
    cases h
    exact List.forall_mem_singleton.mpr (.label List.mem_cons_self)
  | ifGoto name =>
    cases h
    exact List.forall_mem_cons.mpr ⟨.register (by decide),
      List.forall_mem_singleton.mpr (.label List.mem_cons_self)⟩
  | function name locals =>
    cases h
    exact refers_of_functionBlock name locals
  | call name args =>
    cases h
    intro x hx
    exact (refers_of_callBlock name args x hx).mono (fun _ h => h) (List.subset_append_left _ _)
      fun _ h => h
  | ret =>
    cases h
    exact Refers.of_registers _ (by decide)

/-! ### Symbols of commands and units -/

theorem refers_of_code (h : ∀ command ∈ commands, command.Translatable) :
    ∀ name ∈ (c.code settings commands).filterMap Line.symbol?,
      Refers [c.unit] (Hack.labelsOf (c.code settings commands) ++ c.targetsOf commands)
        commands name := by
  induction commands generalizing c with
  | nil => exact fun name hname => absurd hname List.not_mem_nil
  | cons command rest ih =>
    obtain ⟨hcommand, hrest⟩ := List.forall_mem_cons.mp h
    obtain ⟨block, hblock⟩ := exists_block (c := c) hcommand
    have hlabels : Hack.labelsOf (c.code settings (command :: rest)) =
        Hack.labelsOf block ++ Hack.labelsOf ((c.after command).code settings rest) :=
      filterMap_code_cons (fun _ => rfl) hblock
    rw [filterMap_code_cons (fun _ => rfl) hblock, hlabels, targetsOf]
    refine List.forall_mem_append.mpr ⟨fun name hname => ?_, fun name hname => ?_⟩
    · refine (refers_of_block hblock name hname).mono (fun _ h => h) ?_ ?_
      · grind
      · grind
    · refine (ih hrest name hname).mono ?_ ?_ ?_
      · rw [unit_after]
        exact fun _ h => h
      · grind
      · grind

theorem refers_of_partsCode (h : ∀ p ∈ parts, p.Sound) :
    ∀ name ∈ (c.partsCode settings parts).filterMap Line.symbol?,
      Refers (parts.map Part.unit) (Hack.labelsOf (c.partsCode settings parts)
        ++ c.partsTargets parts) (parts.flatMap Part.commands) name := by
  induction parts generalizing c with
  | nil => exact fun name hname => absurd hname List.not_mem_nil
  | cons p rest ih =>
    obtain ⟨hp, hrest⟩ := List.forall_mem_cons.mp h
    have hlabels : Hack.labelsOf (c.partsCode settings (p :: rest)) =
        Hack.labelsOf ((c.enter p.unit).code settings p.commands)
        ++ Hack.labelsOf ((c.afterPart p).partsCode settings rest) :=
      List.filterMap_append
    rw [hlabels, partsCode, partsTargets, List.filterMap_append, List.map_cons, List.flatMap_cons]
    refine List.forall_mem_append.mpr ⟨fun name hname => ?_, fun name hname => ?_⟩
    · refine (refers_of_code hp.translatable name hname).mono ?_ ?_ ?_
      · grind [enter]
      · grind
      · grind
    · refine (ih hrest name hname).mono ?_ ?_ ?_
      · grind
      · grind
      · grind

end Context

/-! ### Symbols of programs -/

namespace Translator

variable {settings : Settings} {parts : List Part}

/-- The calls in front of the first unit. -/
def setupCalls (settings : Settings) : List Command :=
  if settings.bootstrap then [.call entryPoint 0] else []

theorem refers_of_new {units : List String} :
    ∀ name ∈ (new settings).lines.toList.filterMap Line.symbol?,
      Refers units (Hack.labelsOf (new settings).lines.toList) (setupCalls settings) name := by
  cases hbootstrap : settings.bootstrap with
  | false =>
    unfold new setupCalls
    rw [hbootstrap, if_neg Bool.false_ne_true]
    exact fun name hname => absurd hname List.not_mem_nil
  | true =>
    rw [lines_new_of_bootstrap hbootstrap, setupCalls, if_pos hbootstrap, List.filterMap_append]
    have hsetup : (stackSetup settings).filterMap Line.symbol? = ["SP"] := by
      unfold stackSetup
      rw [List.filterMap_append, Context.filterMap_commentLines fun _ => rfl]
      rfl
    rw [hsetup]
    refine List.forall_mem_append.mpr ⟨Refers.of_registers _ (by decide), fun name hname => ?_⟩
    refine (Context.refers_of_callBlock entryPoint 0 name hname).mono (fun _ h => h) ?_ fun _ h => h
    rw [Hack.labelsOf, Hack.labelsOf, List.filterMap_append]
    exact List.subset_append_right _ _

/-- **The symbols of a program.** -/
theorem refers_of_program (h : ∀ p ∈ parts, p.Sound) :
    ∀ name ∈ (program settings (parts.map Part.source)).filterMap Line.symbol?,
      Refers (parts.map Part.unit)
        (Hack.labelsOf (program settings (parts.map Part.source))
          ++ (new settings).context.partsTargets parts)
        (setupCalls settings ++ parts.flatMap Part.commands) name := by
  have hending : (ending settings).filterMap Line.symbol? ⊆ Hack.labelsOf (ending settings) := by
    unfold ending
    split
    · exact fun _ h => h
    · exact fun _ h => h
  rw [program_of_sound h, Hack.labelsOf, List.filterMap_append, List.filterMap_append,
    List.filterMap_append, List.filterMap_append, List.forall_mem_append, List.forall_mem_append]
  refine ⟨⟨fun name hname => ?_, fun name hname => ?_⟩, fun name hname => ?_⟩
  · refine (refers_of_new name hname).mono (fun _ h => h) ?_ (List.subset_append_left _ _)
    grind [Hack.labelsOf]
  · refine (Context.refers_of_partsCode h name hname).mono (fun _ h => h) ?_
      (List.subset_append_right _ _)
    grind [Hack.labelsOf]
  · have hlabel := hending hname
    exact .label (by grind [Hack.labelsOf])

end Translator

end JackToolchain.VM
