import Mathlib
import JackToolchain.Proofs.Jack.Assembly

/-!
# The functions of a compiled class

A source is compiled to a text, and the text is read as a program again.  The program is divided
into functions, each of which goes from its `function` command up to the next one
(`functionBlocks`).  The functions of a program that a class has been compiled to are the codes of
its subroutines, in order, so what is known about the code of a subroutine is known about a function
of the output (`functionBlocks_of_compile`).
-/

namespace JackToolchain.Jack

open VM (Command SourceLine declaredLabels declaredLabels_append jumpTargets jumpTargets_append
    numberedFrom programText
  readProgram)

/-! ### Dividing a program -/

/-- The functions of a program: a new one begins at each `function` command. -/
def functionBlocks (commands : List Command) : List (List Command) :=
  commands.splitBy fun _ c => inner c

/-- Commands that begin a function, and no other one behind the first command. -/
def IsFunctionBlock (block : List Command) : Prop :=
  ∃ name locals rest, block = .function name locals :: rest ∧ rest.all inner

theorem isChain_cons_of_all_inner (c : Command) {rest : List Command} (h : rest.all inner) :
    (c :: rest).IsChain fun _ d => inner d := by
  induction rest generalizing c with
  | nil => exact .singleton c
  | cons d rest ih =>
    rw [List.all_cons, Bool.and_eq_true] at h
    exact .cons_cons h.1 (ih d h.2)

/-- **Functions one behind the other are found again.** -/
theorem functionBlocks_flatten {blocks : List (List Command)}
    (h : ∀ b ∈ blocks, IsFunctionBlock b) : functionBlocks blocks.flatten = blocks := by
  refine List.splitBy_flatten ?_ ?_ ?_
  · intro hnil
    obtain ⟨name, locals, rest, heq, -⟩ := h [] hnil
    cases heq
  · intro b hb
    obtain ⟨name, locals, rest, rfl, hrest⟩ := h b hb
    exact isChain_cons_of_all_inner _ hrest
  · refine (List.pairwise_of_forall_mem_list fun a ha b hb => ?_).isChain
    obtain ⟨name, locals, rest, rfl, -⟩ := h a ha
    obtain ⟨name', locals', rest', rfl, -⟩ := h b hb
    exact ⟨List.cons_ne_nil _ _, List.cons_ne_nil _ _, rfl⟩

section
variable {c : Class} {outer : Scope} {n : Nat}

theorem Subroutine.isFunctionBlock_code (s : Subroutine) : IsFunctionBlock (s.code c outer n) :=
  ⟨_, _, _, rfl, s.inner_body⟩

/-- **A subroutine jumps to labels that it declares.** -/
theorem Subroutine.jumpTargets_code_subset (s : Subroutine) :
    jumpTargets (s.code c outer n) ⊆ declaredLabels (s.code c outer n) := by
  have hsetup := s.kind.straight_setupCode (c.fieldCount outer)
  have hbody := jumpTargets_statementsCode_subset (s.naming c outer) n s.body
  rw [Subroutine.code, ← List.singleton_append, jumpTargets_append, jumpTargets_append,
    declaredLabels_append, declaredLabels_append, jumpTargets_of_straight hsetup,
    declaredLabels_of_straight hsetup]
  exact hbody

/-- Each code is that of a subroutine, the first label of which has some number. -/
theorem exists_of_mem_subroutineCodes {subroutines : List Subroutine} {block : List Command}
    (h : block ∈ subroutineCodes c outer n subroutines) :
    ∃ s ∈ subroutines, ∃ k, block = s.code c outer k := by
  induction subroutines generalizing n with
  | nil => cases h
  | cons s rest ih =>
    rcases List.mem_cons.mp h with rfl | h
    · exact ⟨s, List.mem_cons_self, n, rfl⟩
    · obtain ⟨s', hs', k, rfl⟩ := ih h
      exact ⟨s', List.mem_cons_of_mem s hs', k, rfl⟩

/-- The functions of a class are the codes of its subroutines. -/
theorem functionBlocks_subroutineCodes (subroutines : List Subroutine) :
    functionBlocks (subroutineCodes c outer n subroutines).flatten =
      subroutineCodes c outer n subroutines := by
  refine functionBlocks_flatten fun b hb => ?_
  obtain ⟨s, -, k, rfl⟩ := exists_of_mem_subroutineCodes hb
  exact s.isFunctionBlock_code

/-- Each subroutine has a code, the first label of which has some number. -/
theorem forall₂_subroutineCodes {P : Subroutine → List Command → Prop}
    {subroutines : List Subroutine} (h : ∀ s ∈ subroutines, ∀ n, P s (s.code c outer n)) :
    List.Forall₂ P subroutines (subroutineCodes c outer n subroutines) := by
  induction subroutines generalizing n with
  | nil => exact .nil
  | cons s rest ih =>
    obtain ⟨hs, hrest⟩ := List.forall_mem_cons.mp h
    exact .cons (hs n) (ih hrest)

end

/-! ### The program of a source -/

/-- **What a source is compiled to** is the text of the commands that its class generates, and these
commands are read from it, one on each line. -/
theorem program_of_compile {source output : String} (h : compile .vm source = .ok output) :
    ∃ c g, parseUnit source = .ok c ∧ (Generator.new .unlimited).compile c = (.ok (), g) ∧
      g.sink.commands.toList = c.part.commands ∧ output = programText c.part.commands ∧
      readProgram output = .ok (numberedFrom 1 c.part.commands) := by
  obtain ⟨c, hparse⟩ := exists_class_of_compile h
  obtain ⟨g, hrun, rfl⟩ := run_of_compile hparse h
  have hcommands : g.sink.commands.toList = c.part.commands := (Class.commands_of_compile hrun).2
  have hsound : c.part.Sound := Class.sound_part (spelled_of_parseUnit hparse)
  refine ⟨c, g, hparse, hrun, hcommands, congrArg programText hcommands, ?_⟩
  rw [hcommands]
  exact VM.readProgram_programText fun cmd hcmd => (hsound.wellNamed cmd hcmd).isName

theorem functionBlocks_part (c : Class) :
    functionBlocks c.part.commands = subroutineCodes c .empty 0 c.subroutines :=
  functionBlocks_subroutineCodes c.subroutines

/-- **The functions of the output** are those of the subroutines, one for each and in order, and
what is known about the code of a subroutine is known about its function. -/
theorem functionBlocks_of_compile {P : Class → Subroutine → List Command → Prop}
    {source output : String} (h : compile .vm source = .ok output)
    (hcode : ∀ c g, parseUnit source = .ok c → (Generator.new .unlimited).compile c = (.ok (), g) →
      ∀ s ∈ c.subroutines, ∀ n, P c s (s.code c .empty n)) :
    ∃ c g program, parseUnit source = .ok c ∧ (Generator.new .unlimited).compile c = (.ok (), g) ∧
      readProgram output = .ok program ∧
        List.Forall₂ (P c) c.subroutines (functionBlocks (program.map SourceLine.command)) := by
  obtain ⟨c, g, hparse, hrun, -, -, hread⟩ := program_of_compile h
  refine ⟨c, g, _, hparse, hrun, hread, ?_⟩
  rw [VM.map_numberedFrom, functionBlocks_part]
  exact forall₂_subroutineCodes (hcode c g hparse hrun)

/-- In a class with one subroutine, there is one function for it. -/
theorem exists_of_forall₂_of_length_eq_one {R : Subroutine → List Command → Prop}
    {subroutines : List Subroutine} {blocks : List (List Command)}
    (h : List.Forall₂ R subroutines blocks) (hlength : subroutines.length = 1) :
    ∃ s block, subroutines = [s] ∧ blocks = [block] ∧ R s block := by
  obtain ⟨s, rfl⟩ := List.length_eq_one_iff.mp hlength
  obtain ⟨block, rest, hblock, hnil, rfl⟩ := List.forall₂_cons_left_iff.mp h
  cases hnil
  exact ⟨s, block, rfl, rfl, hblock⟩

/-- A class with variables of all kinds.  Its second local variable has the name of the first. -/
def cellSource : String :=
  "class Cell \x7b static int s; field int f; constructor Cell new(int a) \x7b var int b, b; let f = b; return this; \x7d \x7d"

theorem exists_output_cell : ∃ output, compile .vm cellSource = .ok output :=
  exists_output (by cbv)

end JackToolchain.Jack
