import JackToolchain.Proofs.Jack.FunctionBlocks

/-!
# Labels over a whole run

One generator may compile any number of classes, and it goes on with its numbers whether a class
compiles or not.  A class that fails has been generated up to the place where it fails, so its
labels cannot be told from its code.  What can be told of every computation is which labels it may
declare, however far it gets (`Generation.MayDeclare`): labels of its own, each once and in a given
order, and labels with numbers that it uses up itself.

A statement takes a number first and declares its own labels with it; the parts of the statement
take later numbers.  So the own labels of a statement are new to the outside, and a whole run
declares no label twice (`labels_of_compileAll`).  Where a class does compile, its functions jump to
labels that they declare themselves.
-/

namespace JackToolchain.Jack

open VM (Command declaredLabels declaredLabels_append jumpTargets mem_declaredLabels)

/-! ### What a computation declares -/

/-- One generator has gone on from the other.  What has been written in between declares some of the
given labels, in order, and others with the numbers that have been used up in between. -/
def Generator.GoesOn (g g' : Generator) (own : List String) : Prop :=
  ∃ commands mine others, g'.sink.commands.toList = g.sink.commands.toList ++ commands ∧
    (declaredLabels commands).Perm (mine ++ others) ∧ mine.Sublist own ∧
      g.labels ≤ g'.labels ∧ LabelsIn g.labels g'.labels others

namespace Generator.GoesOn

variable {g g₁ g₂ : Generator} {xs ys : List String}

theorem mono (h : g.GoesOn g₁ xs) (hsub : xs.Sublist ys) : g.GoesOn g₁ ys := by
  obtain ⟨commands, mine, others, hcommands, hperm, hmine, hlabels, hothers⟩ := h
  exact ⟨commands, mine, others, hcommands, hperm, hmine.trans hsub, hlabels, hothers⟩

theorem trans (h : g.GoesOn g₁ xs) (h' : g₁.GoesOn g₂ ys) : g.GoesOn g₂ (xs ++ ys) := by
  obtain ⟨commands, mine, others, hcommands, hperm, hmine, hlabels, hothers⟩ := h
  obtain ⟨commands', mine', others', hcommands', hperm', hmine', hlabels', hothers'⟩ := h'
  refine ⟨commands ++ commands', mine ++ mine', others ++ others', ?_, ?_, hmine.append hmine',
    hlabels.trans hlabels', hothers.append hothers' hlabels hlabels'⟩
  · rw [hcommands', hcommands, List.append_assoc]
  · rw [declaredLabels_append]
    refine (hperm.append hperm').trans ?_
    -- The own labels of the second come before the other labels of the first.
    rw [List.append_assoc, List.append_assoc, ← List.append_assoc others, ← List.append_assoc mine']
    exact (List.perm_append_comm.append_right others').append_left mine

/-- Nothing that matters for labels has happened. -/
theorem of_eq (hcommands : g₁.sink.commands = g.sink.commands) (hlabels : g₁.labels = g.labels) :
    g.GoesOn g₁ xs :=
  ⟨[], [], [], by rw [hcommands, List.append_nil], .nil, List.nil_sublist xs, hlabels.ge, .nil _ _⟩

end Generator.GoesOn

namespace Generation

variable {α β : Type} {xs ys : List String}

/-- The generator that a computation leaves, whether it succeeds or not. -/
def final (p : Generation α) (g : Generator) : Generator :=
  match p g with
  | .ok _ g' | .error _ g' => g'

/-- The labels that a computation may declare, wherever it stops: its own ones and those that it
numbers itself. -/
def MayDeclare (p : Generation α) (own : List String) : Prop :=
  ∀ g : Generator, g.GoesOn (final p g) own

/-- Computations in a row.  If the first one fails, the second one declares nothing. -/
theorem MayDeclare.bind {p : Generation α} {f : α → Generation β} (h : p.MayDeclare xs)
    (h' : ∀ a, (f a).MayDeclare ys) : MayDeclare (p >>= f) (xs ++ ys) := by
  intro g
  have hp := h g
  have hfinal : final (p >>= f) g = match p g with
      | .ok a g' => final (f a) g'
      | .error _ g' => g' := by
    show (match EStateM.bind p f g with | .ok _ g' | .error _ g' => g') = _
    unfold EStateM.bind
    cases p g <;> rfl
  rw [hfinal]
  unfold final at hp
  cases hr : p g with
  | ok a g' =>
    rw [hr] at hp
    exact hp.trans (h' a g')
  | error e g' =>
    rw [hr] at hp
    exact hp.mono (List.sublist_append_left xs ys)

theorem mayDeclare_pure (a : α) : MayDeclare (pure a) [] := fun _ => .of_eq rfl rfl

theorem mayDeclare_throw (e : CompileError) : MayDeclare (throw e : Generation α) [] :=
  fun _ => .of_eq rfl rfl

theorem mayDeclare_get : MayDeclare (get : Generation Generator) [] := fun _ => .of_eq rfl rfl

/-! ### Single steps -/

/-- A command that does not fit is not written. -/
theorem mayDeclare_emit (c : Command) : (emit c).MayDeclare (declaredLabels [c]) := by
  rintro ⟨⟨room, commands, cut⟩, symbols, className, labels⟩
  have hwritten {sink : Sink} (hsink : sink.commands = commands.push c) :
      Generator.GoesOn ⟨⟨room, commands, cut⟩, symbols, className, labels⟩ ⟨sink, symbols,
      className, labels⟩
        (declaredLabels [c]) := by
    refine ⟨[c], declaredLabels [c], [], ?_, ?_, List.Sublist.refl _, Nat.le_refl _, .nil _ _⟩
    · rw [hsink, Array.toList_push]
    · rw [List.append_nil]
  unfold final emit
  cases room with
  | none => exact hwritten rfl
  | some bytes =>
    by_cases hroom : c.line.utf8ByteSize ≤ bytes
    · simp only [Sink.hasRoomFor, Sink.write, hroom, decide_true, if_true]
      exact hwritten rfl
    · simp only [Sink.hasRoomFor, Sink.write, hroom, decide_false, Bool.false_eq_true, if_false]
      exact .of_eq rfl rfl

/-- What follows a new number may have the labels with the number for its own: outside they are
new. -/
theorem mayDeclare_freshLabel_bind {f : Nat → Generation α} (own : Nat → List String)
    (h : ∀ n, (f n).MayDeclare (own n)) (hown : ∀ n, LabelsIn n (n + 1) (own n)) :
    MayDeclare (freshLabel >>= f) [] := by
  rintro ⟨sink, symbols, className, n⟩
  obtain ⟨commands, mine, others, hcommands, hperm, hmine, hlabels, hothers⟩ :=
    h n ⟨sink, symbols, className, n + 1⟩
  have hmineIn : LabelsIn n (n + 1) mine :=
    ⟨(hown n).nodup.sublist hmine, fun x hx => (hown n).numbered x (hmine.subset hx)⟩
  exact ⟨commands, [], mine ++ others, hcommands, hperm, List.nil_sublist _,
    (Nat.le_succ n).trans hlabels, hmineIn.append hothers (Nat.le_succ n) hlabels⟩

theorem mayDeclare_define (name type : String) (kind : VarKind) (span : Span) :
    (define name type kind span).MayDeclare [] := by
  rintro ⟨sink, symbols, className, labels⟩
  simp only [final, define]
  cases symbols.define name type kind with
  | mk v table => cases v <;> exact .of_eq rfl rfl

theorem mayDeclare_resetSymbols : resetSymbols.MayDeclare [] := fun _ => .of_eq rfl rfl

theorem mayDeclare_lookup (x : Ident) : (lookup x).MayDeclare [] :=
  mayDeclare_get.bind fun _ => mayDeclare_pure _

theorem mayDeclare_resolve (x : Ident) (use : Use) : (resolve x use).MayDeclare [] := by
  refine (mayDeclare_lookup x).bind fun v => ?_
  cases v with
  | some v => exact mayDeclare_pure v
  | none => exact mayDeclare_throw _

theorem mayDeclare_qualified (x : Ident) : (qualified x).MayDeclare [] :=
  mayDeclare_get.bind fun _ => mayDeclare_pure _

theorem mayDeclare_countOf (kind : VarKind) : (countOf kind).MayDeclare [] :=
  mayDeclare_get.bind fun _ => mayDeclare_pure _

theorem mayDeclare_counted (n : Nat) (quota : Quota) (span : Span) :
    (counted n quota span).MayDeclare [] := by
  unfold counted
  cases Word.ofNat? n with
  | some w => exact mayDeclare_pure w
  | none => exact mayDeclare_throw _

/-! ### Short sequences -/

theorem mayDeclare_pushVariable (v : Variable) : (pushVariable v).MayDeclare [] := mayDeclare_emit _

theorem mayDeclare_appendUnits (units : List Word) : (appendUnits units).MayDeclare [] := by
  induction units with
  | nil => exact mayDeclare_pure _
  | cons unit rest ih =>
    exact (mayDeclare_emit _).bind fun _ => (mayDeclare_emit _).bind fun _ => ih

theorem mayDeclare_stringConstant (contents : String) (span : Span) :
    (stringConstant contents span).MayDeclare [] :=
  (mayDeclare_counted _ _ _).bind fun _ => (mayDeclare_emit _).bind fun _ =>
    (mayDeclare_emit _).bind fun _ =>
    mayDeclare_appendUnits _

theorem mayDeclare_literal (value : Literal) : (literal value).MayDeclare [] := by
  cases value with
  | int | false | null | this => exact mayDeclare_emit _
  | string contents span => exact mayDeclare_stringConstant contents span
  | true => exact (mayDeclare_emit _).bind fun _ => mayDeclare_emit _

theorem mayDeclare_unary (op : UnaryOp) : (emit (unaryCommand op)).MayDeclare [] := by
  cases op <;> exact mayDeclare_emit _

theorem mayDeclare_binary (op : BinaryOp) : (emit (binaryCommand op)).MayDeclare [] := by
  cases op <;> exact mayDeclare_emit _

theorem mayDeclare_receiver (object : Option Ident) (name : Ident) :
    (receiver object name).MayDeclare [] := by
  cases object with
  | none =>
    exact (mayDeclare_emit _).bind fun _ => (mayDeclare_qualified name).bind fun _ =>
      mayDeclare_pure _
  | some x =>
    refine (mayDeclare_lookup x).bind fun v => ?_
    cases v with
    | some v => exact (mayDeclare_pushVariable v).bind fun _ => mayDeclare_pure _
    | none => exact mayDeclare_pure _

end Generation

open Generation

/-! ### Expressions -/

mutual

theorem Term.mayDeclare : ∀ t : Term, MayDeclare t.generate []
  | .literal value => by
    rw [Term.generate]
    exact mayDeclare_literal value
  | .var x => by
    rw [Term.generate]
    exact (mayDeclare_resolve x _).bind fun v => mayDeclare_pushVariable v
  | .element array subscript => by
    rw [Term.generate]
    exact (mayDeclare_resolve array _).bind fun v => (mayDeclare_pushVariable v).bind fun _ =>
      subscript.mayDeclare.bind fun _ => (mayDeclare_emit _).bind fun _ =>
        (mayDeclare_emit _).bind fun _ => mayDeclare_emit _
  | .call call => by
    rw [Term.generate]
    exact call.mayDeclare
  | .paren inner => by
    rw [Term.generate]
    exact inner.mayDeclare
  | .unary op operand => by
    rw [Term.generate]
    exact operand.mayDeclare.bind fun _ => mayDeclare_unary op

/-- An expression declares no labels. -/
theorem Expr.mayDeclare : ∀ e : Expr, MayDeclare e.generate []
  | .mk head tail => by
    rw [Expr.generate]
    exact head.mayDeclare.bind fun _ => mayDeclare_generateOperands tail

theorem mayDeclare_generateOperands :
    ∀ operands : List Operand, MayDeclare (generateOperands operands) []
  | [] => by
    rw [generateOperands]
    exact mayDeclare_pure _
  | .mk op term :: rest => by
    rw [generateOperands]
    exact term.mayDeclare.bind fun _ => (mayDeclare_binary op).bind fun _ =>
      mayDeclare_generateOperands rest

theorem Call.mayDeclare : ∀ call : Call, MayDeclare call.generate []
  | .mk object name paren args => by
    rw [Call.generate]
    exact (mayDeclare_receiver object name).bind fun _ =>
      (mayDeclare_generateArgs args).bind fun _ =>
      (mayDeclare_counted _ _ _).bind fun _ => mayDeclare_emit _

theorem mayDeclare_generateArgs : ∀ args : List Expr, MayDeclare (generateArgs args) []
  | [] => by
    rw [generateArgs]
    exact mayDeclare_pure _
  | arg :: rest => by
    rw [generateArgs]
    exact arg.mayDeclare.bind fun _ => mayDeclare_generateArgs rest

end

/-! ### Statements -/

mutual

/-- **A statement declares labels that it numbers itself.** -/
theorem Statement.mayDeclare : ∀ s : Statement, MayDeclare s.generate []
  | .assign x value => by
    rw [Statement.generate]
    exact (mayDeclare_resolve x _).bind fun _ => value.mayDeclare.bind fun _ => mayDeclare_emit _
  | .assignElement array subscript value => by
    rw [Statement.generate]
    exact (mayDeclare_resolve array _).bind fun v => (mayDeclare_pushVariable v).bind fun _ =>
      subscript.mayDeclare.bind fun _ => (mayDeclare_emit _).bind fun _ =>
        value.mayDeclare.bind fun _ =>
        (mayDeclare_emit _).bind fun _ => (mayDeclare_emit _).bind fun _ =>
          (mayDeclare_emit _).bind fun _ => mayDeclare_emit _
  | .ifThen condition body => by
    rw [Statement.generate]
    refine mayDeclare_freshLabel_bind (fun n => [ifEnd n]) (fun n => ?_) fun n =>
      .single (by simp [numberedLabels])
    exact condition.mayDeclare.bind fun _ => (mayDeclare_emit _).bind fun _ =>
      (mayDeclare_emit _).bind fun _ =>
      (mayDeclare_generateStatements body).bind fun _ => mayDeclare_emit (.label (ifEnd n))
  | .ifElse condition body alternative => by
    rw [Statement.generate]
    refine mayDeclare_freshLabel_bind (fun n => [ifElse n, ifEnd n]) (fun n => ?_) fun n =>
      LabelsIn.perm (.single (by simp [numberedLabels])) (.swap (ifElse n) (ifEnd n) [])
    exact condition.mayDeclare.bind fun _ => (mayDeclare_emit _).bind fun _ =>
      (mayDeclare_emit _).bind fun _ =>
      (mayDeclare_generateStatements body).bind fun _ => (mayDeclare_emit _).bind fun _ =>
        (mayDeclare_emit (.label (ifElse n))).bind fun _ =>
          (mayDeclare_generateStatements alternative).bind fun _ =>
          mayDeclare_emit (.label (ifEnd n))
  | .while condition body => by
    rw [Statement.generate]
    refine mayDeclare_freshLabel_bind (fun n => [whileStart n, whileEnd n]) (fun n => ?_) fun n =>
      .single (by simp [numberedLabels])
    exact (mayDeclare_emit (.label (whileStart n))).bind fun _ => condition.mayDeclare.bind fun _ =>
      (mayDeclare_emit _).bind fun _ => (mayDeclare_emit _).bind fun _ =>
        (mayDeclare_generateStatements body).bind fun _ =>
        (mayDeclare_emit _).bind fun _ => mayDeclare_emit (.label (whileEnd n))
  | .do call => by
    rw [Statement.generate]
    exact call.mayDeclare.bind fun _ => mayDeclare_emit _
  | .return (some value) => by
    rw [Statement.generate]
    exact value.mayDeclare.bind fun _ => mayDeclare_emit _
  | .return none => by
    rw [Statement.generate]
    exact (mayDeclare_emit _).bind fun _ => mayDeclare_emit _

theorem mayDeclare_generateStatements :
    ∀ body : List Statement, MayDeclare (generateStatements body) []
  | [] => by
    rw [generateStatements]
    exact mayDeclare_pure _
  | s :: rest => by
    rw [generateStatements]
    exact s.mayDeclare.bind fun _ => mayDeclare_generateStatements rest

end

/-! ### Declarations -/

theorem mayDeclare_defineAll (type : String) (kind : VarKind) (names : List Ident) :
    (defineAll type kind names).MayDeclare [] := by
  induction names with
  | nil => exact mayDeclare_pure _
  | cons x rest ih => exact (mayDeclare_define _ _ _ _).bind fun _ => ih

theorem mayDeclare_defineParameters (parameters : List Parameter) :
    (defineParameters parameters).MayDeclare [] := by
  induction parameters with
  | nil => exact mayDeclare_pure _
  | cons p rest ih => exact (mayDeclare_define _ _ _ _).bind fun _ => ih

theorem mayDeclare_defineLocals (locals : List VarDec) : (defineLocals locals).MayDeclare [] := by
  induction locals with
  | nil => exact mayDeclare_pure _
  | cons d rest ih => exact (mayDeclare_defineAll _ _ _).bind fun _ => ih

theorem mayDeclare_defineClassVars (vars : List ClassVarDec) :
    (defineClassVars vars).MayDeclare [] := by
  induction vars with
  | nil => exact mayDeclare_pure _
  | cons d rest ih => exact (mayDeclare_defineAll _ _ _).bind fun _ => ih

theorem mayDeclare_objectSetup (kind : SubroutineKind) : (objectSetup kind).MayDeclare [] := by
  cases kind with
  | function => exact mayDeclare_pure _
  | constructor =>
    exact (mayDeclare_countOf _).bind fun _ => (mayDeclare_emit _).bind fun _ =>
      (mayDeclare_emit _).bind fun _ =>
      mayDeclare_emit _
  | method => exact (mayDeclare_emit _).bind fun _ => mayDeclare_emit _

theorem Subroutine.mayDeclare_declare (s : Subroutine) : MayDeclare s.declare [] := by
  have hvariables : MayDeclare (do defineParameters s.parameters; defineLocals s.locals) [] :=
    (mayDeclare_defineParameters _).bind fun _ => mayDeclare_defineLocals _
  refine mayDeclare_resetSymbols.bind fun _ => ?_
  dsimp only
  split
  · exact mayDeclare_get.bind fun _ => (mayDeclare_define _ _ _ _).bind fun _ => hvariables
  · exact hvariables

theorem Subroutine.mayDeclare (s : Subroutine) : MayDeclare s.generate [] :=
  s.mayDeclare_declare.bind fun _ => (mayDeclare_qualified _).bind fun _ =>
    (mayDeclare_countOf _).bind fun _ =>
    (mayDeclare_emit _).bind fun _ => (mayDeclare_objectSetup _).bind fun _ =>
      mayDeclare_generateStatements _

theorem mayDeclare_generateSubroutines (subroutines : List Subroutine) :
    MayDeclare (generateSubroutines subroutines) [] := by
  induction subroutines with
  | nil => exact mayDeclare_pure _
  | cons s rest ih => exact s.mayDeclare.bind fun _ => ih

theorem Class.mayDeclare (c : Class) : MayDeclare c.generate [] := by
  have hname : MayDeclare (modify fun g => { g with className := c.name.name }) [] :=
    fun _ => .of_eq rfl rfl
  exact hname.bind fun _ => (mayDeclare_defineClassVars _).bind fun _ =>
    mayDeclare_generateSubroutines _

/-! ### Runs -/

/-- The generator behind classes that have been compiled one after the other, into a sink that may
have room for a number of bytes only.  Each class is compiled, whether those before it have been
compiled without error or not. -/
def compileAll (room : Option Nat) (classes : List Class) : Generator :=
  classes.foldl (fun g c => (g.compile c).2) (.new { room })

namespace Generator

variable {g g' : Generator}

theorem goesOn_compile (g : Generator) (c : Class) : g.GoesOn (g.compile c).2 [] := by
  have hfinal : (g.compile c).2 = final c.generate g := by
    unfold compile final EStateM.run
    cases c.generate g <;> rfl
  rw [hfinal]
  exact c.mayDeclare g

theorem goesOn_foldl (g : Generator) (classes : List Class) :
    g.GoesOn (classes.foldl (fun g c => (g.compile c).2) g) [] := by
  induction classes generalizing g with
  | nil => exact .of_eq rfl rfl
  | cons c rest ih => exact (g.goesOn_compile c).trans (ih _)

/-- Without labels of its own, what goes on has declared new labels only. -/
theorem GoesOn.labelsIn (h : g.GoesOn g' []) :
    ∃ commands, g'.sink.commands.toList = g.sink.commands.toList ++ commands ∧
      LabelsIn g.labels g'.labels (declaredLabels commands) := by
  obtain ⟨commands, mine, others, hcommands, hperm, hmine, -, hothers⟩ := h
  obtain rfl := List.sublist_nil.mp hmine
  exact ⟨commands, hcommands, hothers.perm hperm.symm⟩

end Generator

/-- **A run declares no label twice, and functions jump to labels of their own.**  Classes are
compiled one after the other by one generator, and some of them may fail.  All labels that are
declared on the way are different.  Where a class has been compiled without error, each label that a
function of it jumps to is declared in the function, and once in the whole run. -/
theorem labels_of_compileAll (room : Option Nat) (classes : List Class) :
    (declaredLabels (compileAll room classes).sink.commands.toList).Nodup ∧
      ∀ before c behind g, classes = before ++ c :: behind →
        (compileAll room before).compile c = (.ok (), g) →
        ∃ emitted,
          g.sink.commands.toList = (compileAll room before).sink.commands.toList ++ emitted ∧
          ∀ block ∈ functionBlocks emitted, ∀ name ∈ jumpTargets block,
            name ∈ declaredLabels block ∧
            (declaredLabels (compileAll room classes).sink.commands.toList).count name = 1 := by
  have hnodup : (declaredLabels (compileAll room classes).sink.commands.toList).Nodup := by
    obtain ⟨commands, hcommands, hlabels⟩ :=
      ((Generator.new { room }).goesOn_foldl classes).labelsIn
    have hall : (compileAll room classes).sink.commands.toList = commands := hcommands
    rw [hall]
    exact hlabels.nodup
  refine ⟨hnodup, ?_⟩
  rintro before c behind g rfl hcompile
  obtain ⟨-, hcommands⟩ := Class.commands_of_compile hcompile
  refine ⟨_, hcommands, fun block hblock name hname => ?_⟩
  rw [functionBlocks_subroutineCodes] at hblock
  obtain ⟨s, -, n, rfl⟩ := exists_of_mem_subroutineCodes hblock
  have hdeclared : name ∈ declaredLabels (s.code c _ n) := s.jumpTargets_code_subset hname
  refine ⟨hdeclared, List.count_eq_one_of_mem hnodup ?_⟩
  -- What comes behind the class is written behind it.
  have hbehind : compileAll room (before ++ c :: behind) =
      behind.foldl (fun g c => (g.compile c).2) g := by
    unfold compileAll at hcompile ⊢
    rw [List.foldl_append, List.foldl_cons, hcompile]
  obtain ⟨later, hlater, -⟩ := (g.goesOn_foldl behind).labelsIn
  rw [hbehind, hlater, hcommands, mem_declaredLabels]
  refine List.mem_append_left _ (List.mem_append_right _ ?_)
  exact List.mem_flatten.mpr ⟨_, hblock, mem_declaredLabels.mp hdeclared⟩

/-- A class with the subroutine `function void spin() { while (true) { let x = 1; } return; }`.  No
variable has the name `x`, so it fails inside the loop. -/
def spinClass : Class where
  name := ⟨"Spin", default⟩
  classVars := []
  subroutines := [{
    kind := .function
    returns := .void
    name := ⟨"spin", default⟩
    parameters := []
    locals := []
    body := [
      .while (.mk (.literal .true) []) [.assign ⟨"x", default⟩ (.mk (.literal (.int 1 "1")) [])],
      .return none] }]

/-- Behind a class that fails inside a loop, the labels of a loop are new. -/
theorem labels_of_compileAll_spin :
    ∃ g, (compileAll none [spinClass]).compile sevenClass = (.ok (), g) ∧
      (declaredLabels (compileAll none [spinClass, sevenClass]).sink.commands.toList).Nodup ∧
        ∃ emitted,
          g.sink.commands.toList = (compileAll none [spinClass]).sink.commands.toList ++ emitted ∧
          ∀ block ∈ functionBlocks emitted, ∀ name ∈ jumpTargets block,
            name ∈ declaredLabels block ∧
            (declaredLabels (compileAll none [spinClass, sevenClass]).sink.commands.toList).count
              name = 1 := by
  have hcompiles : ((compileAll none [spinClass]).compile sevenClass).1.toOption.isSome = true := by
    cbv
  cases hcompile : (compileAll none [spinClass]).compile sevenClass with
  | mk result g =>
    rw [hcompile] at hcompiles
    cases result with
    | error e => cases hcompiles
    | ok =>
      obtain ⟨hnodup, hclasses⟩ := labels_of_compileAll none [spinClass, sevenClass]
      exact ⟨g, rfl, hnodup, hclasses [spinClass] sevenClass [] g rfl hcompile⟩

end JackToolchain.Jack
