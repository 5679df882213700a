import JackToolchain.Proofs.Jack.FreshLabels
import JackToolchain.Proofs.Jack.SinkBytes

/-!
# Generation into a sink that may be full

Of its sink, generation sees only whether a command fits.  So there is one list of commands that a
computation writes, wherever it writes them: if they fit, it ends as in front of a sink that takes
everything, and if they do not, it ends with the error that the sink is full (`Generation.Outcome`).
Computations in a row share the room that there is, and nothing is written behind a command that has
not fitted (`Generation.Outcome.bind_ok`), so it does not matter which error might have come later
(`Generator.compile_into_limited_sink`).
-/

namespace JackToolchain.Jack

open VM (Command)

/-! ### Computations -/

/-- The generator with another sink. -/
def Generator.onto (g : Generator) (s : Sink) : Generator := { g with sink := s }

namespace Generation

variable {α β : Type}

/-- A result and the generator that it leaves. -/
def ending : Except CompileError α → Generator → EStateM.Result CompileError Generator α
  | .ok a, g => .ok a g
  | .error e, g => .error e g

/-- **The outcome of a computation, in front of any sink.**  If the sink has room for the commands,
they are written, and the computation has the result and leaves the generator, apart from the sink.
Otherwise as much is written of them as fits, and the error is that the sink is full. -/
structure Outcome (p : Generation α) (g : Generator) (commands : List Command)
    (result : Except CompileError α) (g' : Generator) : Prop where
  ne_full : result ≠ .error .sinkFull
  fits : ∀ s : Sink, s.Fits commands → p (g.onto s) = ending result (g'.onto (s.writeAll commands))
  full : ∀ s : Sink, ¬s.Fits commands → ∃ g'', p (g.onto s) = .error .sinkFull g'' ∧
    g''.sink = s.writeAll commands

/-- From every generator, a computation has an outcome that is the same for all sinks. -/
def HasOutcomes (p : Generation α) : Prop :=
  ∀ g, ∃ commands result g', p.Outcome g commands result g'

section
variable {p : Generation α} {f : α → Generation β} {g g₁ g₂ : Generator}
  {xs ys : List Command} {a : α} {e : CompileError} {result : Except CompileError β}

/-- Nothing is written. -/
theorem Outcome.silent {result : Except CompileError α} (hne : result ≠ .error .sinkFull)
    (h : ∀ s, p (g.onto s) = ending result (g₁.onto s)) : p.Outcome g [] result g₁ where
  ne_full := hne
  fits := fun s _ => h s
  full := fun _ hfull => absurd Sink.fits_nil hfull

theorem bind_apply (p : Generation α) (f : α → Generation β) (g : Generator) :
    (p >>= f) g = match p g with
      | .ok a g' => f a g'
      | .error e g' => .error e g' := by
  show EStateM.bind p f g = _
  unfold EStateM.bind
  cases p g <;> rfl

/-- If the first computation fails, the second one is not reached. -/
theorem Outcome.bind_error (h : p.Outcome g xs (.error e) g₁) :
    Outcome (p >>= f) g xs (.error e) g₁ where
  ne_full := fun heq => h.ne_full (congrArg Except.error (Except.error.inj heq))
  fits := fun s hs => by
    rw [bind_apply, h.fits s hs]
    rfl
  full := fun s hs => by
    obtain ⟨g', hp, hsink⟩ := h.full s hs
    exact ⟨g', by rw [bind_apply, hp], hsink⟩

/-- **Computations in a row.**  The second one goes on with the room that the first one has left. -/
theorem Outcome.bind_ok (h : p.Outcome g xs (.ok a) g₁) (h' : (f a).Outcome g₁ ys result g₂) :
    Outcome (p >>= f) g (xs ++ ys) result g₂ where
  ne_full := h'.ne_full
  fits := fun s hs => by
    obtain ⟨hxs, hys⟩ := Sink.fits_append.mp hs
    rw [bind_apply, h.fits s hxs, Sink.writeAll_append]
    exact h'.fits _ hys
  full := fun s hs => by
    by_cases hxs : s.Fits xs
    · have hys : ¬(s.writeAll xs).Fits ys := fun hys => hs (Sink.fits_append.mpr ⟨hxs, hys⟩)
      obtain ⟨g', hf, hsink⟩ := h'.full _ hys
      refine ⟨g', ?_, hsink.trans Sink.writeAll_append.symm⟩
      rw [bind_apply, h.fits s hxs]
      exact hf
    · obtain ⟨g', hp, hsink⟩ := h.full s hxs
      refine ⟨g', ?_, hsink.trans (Sink.writeAll_append_of_not_fits hxs).symm⟩
      rw [bind_apply, hp]

end

namespace HasOutcomes

variable {p : Generation α} {f : α → Generation β}

theorem bind (h : p.HasOutcomes) (h' : ∀ a, (f a).HasOutcomes) : HasOutcomes (p >>= f) := by
  intro g
  obtain ⟨xs, result, g₁, hp⟩ := h g
  cases result with
  | error e => exact ⟨xs, .error e, g₁, hp.bind_error⟩
  | ok a =>
    obtain ⟨ys, result, g₂, hf⟩ := h' a g₁
    exact ⟨xs ++ ys, result, g₂, hp.bind_ok hf⟩

/-- A computation may look at the generator, but not at its sink. -/
theorem get_bind {f : Generator → Generation β} (h : ∀ g, (f g).HasOutcomes)
    (hsink : ∀ g s, f (g.onto s) = f g) : HasOutcomes (get >>= f) := by
  intro g
  obtain ⟨xs, result, g', hf⟩ := h g g
  have hget (s : Sink) : (get >>= f) (g.onto s) = f g (g.onto s) := congrFun (hsink g s) (g.onto s)
  refine ⟨xs, result, g', hf.ne_full, fun s hs => (hget s).trans (hf.fits s hs), fun s hs => ?_⟩
  rw [hget]
  exact hf.full s hs

theorem pure (a : α) : HasOutcomes (pure a) := fun g => ⟨[], .ok a, g, .silent nofun fun _ => rfl⟩

theorem throw {e : CompileError} (h : e ≠ .sinkFull) : HasOutcomes (throw e : Generation α) :=
  fun g =>
  ⟨[], .error e, g, .silent (fun heq => h (Except.error.inj heq)) fun _ => rfl⟩

end HasOutcomes

/-! ### Single steps -/

/-- **A command is written** as far as it fits, and if it does not fit as a whole, generation
stops. -/
theorem hasOutcomes_emit (c : Command) : (emit c).HasOutcomes := by
  intro g
  refine ⟨[c], .ok (), g, nofun, fun s hs => ?_, fun s hs => ?_⟩
  · exact if_pos (Sink.fits_singleton.mp hs)
  · refine ⟨g.onto (s.write c), ?_, rfl⟩
    exact if_neg fun hroom => hs (Sink.fits_singleton.mpr hroom)

theorem hasOutcomes_freshLabel : freshLabel.HasOutcomes := fun g =>
  ⟨[], .ok g.labels, { g with labels := g.labels + 1 }, .silent nofun fun _ => rfl⟩

theorem hasOutcomes_define (name type : String) (kind : VarKind) (span : Span) :
    (define name type kind span).HasOutcomes := by
  intro g
  cases hdefine : g.symbols.define name type kind with
  | mk v table =>
    cases v with
    | some v =>
      have hrun (s : Sink) : define name type kind span (g.onto s) =
          .ok () ({ g with symbols := table }.onto s) := by
        simp only [define, Generator.onto, hdefine]
      have hne : (.ok () : Except CompileError Unit) ≠ .error .sinkFull := by simp
      exact ⟨[], .ok (), _, .silent hne hrun⟩
    | none =>
      have hrun (s : Sink) : define name type kind span (g.onto s) =
          .error (.tooMany .variablesOfKind span) ({ g with symbols := table }.onto s) := by
        simp only [define, Generator.onto, hdefine]
      have hne : (.error (.tooMany .variablesOfKind span) : Except CompileError Unit) ≠
          .error .sinkFull := by simp
      exact ⟨[], .error (.tooMany .variablesOfKind span), _, .silent hne hrun⟩

theorem hasOutcomes_resetSymbols : resetSymbols.HasOutcomes := fun g =>
  ⟨[], .ok (), { g with symbols := g.symbols.reset }, .silent nofun fun _ => rfl⟩

theorem hasOutcomes_lookup (x : Ident) : (lookup x).HasOutcomes :=
  .get_bind (fun _ => .pure _) fun _ _ => rfl

theorem hasOutcomes_resolve (x : Ident) (use : Use) : (resolve x use).HasOutcomes := by
  refine (hasOutcomes_lookup x).bind fun v => ?_
  cases v with
  | some v => exact .pure v
  | none => exact .throw nofun

theorem hasOutcomes_qualified (x : Ident) : (qualified x).HasOutcomes :=
  .get_bind (fun _ => .pure _) fun _ _ => rfl

theorem hasOutcomes_countOf (kind : VarKind) : (countOf kind).HasOutcomes :=
  .get_bind (fun _ => .pure _) fun _ _ => rfl

theorem hasOutcomes_counted (n : Nat) (quota : Quota) (span : Span) :
    (counted n quota span).HasOutcomes := by
  unfold counted
  cases Word.ofNat? n with
  | some w => exact .pure w
  | none => exact .throw nofun

/-! ### Short sequences -/

theorem hasOutcomes_pushVariable (v : Variable) : (pushVariable v).HasOutcomes := hasOutcomes_emit _

theorem hasOutcomes_appendUnits (units : List Word) : (appendUnits units).HasOutcomes := by
  induction units with
  | nil => exact .pure _
  | cons unit rest ih =>
    exact (hasOutcomes_emit _).bind fun _ => (hasOutcomes_emit _).bind fun _ => ih

theorem hasOutcomes_stringConstant (contents : String) (span : Span) :
    (stringConstant contents span).HasOutcomes :=
  (hasOutcomes_counted _ _ _).bind fun _ => (hasOutcomes_emit _).bind fun _ =>
    (hasOutcomes_emit _).bind fun _ =>
    hasOutcomes_appendUnits _

theorem hasOutcomes_literal (value : Literal) : (literal value).HasOutcomes := by
  cases value with
  | int | false | null | this => exact hasOutcomes_emit _
  | string contents span => exact hasOutcomes_stringConstant contents span
  | true => exact (hasOutcomes_emit _).bind fun _ => hasOutcomes_emit _

theorem hasOutcomes_receiver (object : Option Ident) (name : Ident) :
    (receiver object name).HasOutcomes := by
  cases object with
  | none =>
    exact (hasOutcomes_emit _).bind fun _ => (hasOutcomes_qualified name).bind fun _ => .pure _
  | some x =>
    refine (hasOutcomes_lookup x).bind fun v => ?_
    cases v with
    | some v => exact (hasOutcomes_pushVariable v).bind fun _ => .pure _
    | none => exact .pure _

end Generation

open Generation

/-! ### Expressions -/

mutual

theorem Term.hasOutcomes : ∀ t : Term, HasOutcomes t.generate
  | .literal value => by
    rw [Term.generate]
    exact hasOutcomes_literal value
  | .var x => by
    rw [Term.generate]
    exact (hasOutcomes_resolve x _).bind fun v => hasOutcomes_pushVariable v
  | .element array subscript => by
    rw [Term.generate]
    exact (hasOutcomes_resolve array _).bind fun v => (hasOutcomes_pushVariable v).bind fun _ =>
      subscript.hasOutcomes.bind fun _ => (hasOutcomes_emit _).bind fun _ =>
        (hasOutcomes_emit _).bind fun _ =>
        hasOutcomes_emit _
  | .call call => by
    rw [Term.generate]
    exact call.hasOutcomes
  | .paren inner => by
    rw [Term.generate]
    exact inner.hasOutcomes
  | .unary op operand => by
    rw [Term.generate]
    exact operand.hasOutcomes.bind fun _ => hasOutcomes_emit _

theorem Expr.hasOutcomes : ∀ e : Expr, HasOutcomes e.generate
  | .mk head tail => by
    rw [Expr.generate]
    exact head.hasOutcomes.bind fun _ => hasOutcomes_generateOperands tail

theorem hasOutcomes_generateOperands :
    ∀ operands : List Operand, HasOutcomes (generateOperands operands)
  | [] => by
    rw [generateOperands]
    exact .pure _
  | .mk op term :: rest => by
    rw [generateOperands]
    exact term.hasOutcomes.bind fun _ => (hasOutcomes_emit _).bind fun _ =>
      hasOutcomes_generateOperands rest

theorem Call.hasOutcomes : ∀ call : Call, HasOutcomes call.generate
  | .mk object name paren args => by
    rw [Call.generate]
    exact (hasOutcomes_receiver object name).bind fun _ =>
      (hasOutcomes_generateArgs args).bind fun _ =>
      (hasOutcomes_counted _ _ _).bind fun _ => hasOutcomes_emit _

theorem hasOutcomes_generateArgs : ∀ args : List Expr, HasOutcomes (generateArgs args)
  | [] => by
    rw [generateArgs]
    exact .pure _
  | arg :: rest => by
    rw [generateArgs]
    exact arg.hasOutcomes.bind fun _ => hasOutcomes_generateArgs rest

end

/-! ### Statements -/

mutual

theorem Statement.hasOutcomes : ∀ s : Statement, HasOutcomes s.generate
  | .assign x value => by
    rw [Statement.generate]
    exact (hasOutcomes_resolve x _).bind fun _ => value.hasOutcomes.bind fun _ => hasOutcomes_emit _
  | .assignElement array subscript value => by
    rw [Statement.generate]
    exact (hasOutcomes_resolve array _).bind fun v => (hasOutcomes_pushVariable v).bind fun _ =>
      subscript.hasOutcomes.bind fun _ => (hasOutcomes_emit _).bind fun _ =>
        value.hasOutcomes.bind fun _ =>
        (hasOutcomes_emit _).bind fun _ => (hasOutcomes_emit _).bind fun _ =>
          (hasOutcomes_emit _).bind fun _ =>
          hasOutcomes_emit _
  | .ifThen condition body => by
    rw [Statement.generate]
    exact hasOutcomes_freshLabel.bind fun _ => condition.hasOutcomes.bind fun _ =>
      (hasOutcomes_emit _).bind fun _ =>
      (hasOutcomes_emit _).bind fun _ => (hasOutcomes_generateStatements body).bind fun _ =>
        hasOutcomes_emit _
  | .ifElse condition body alternative => by
    rw [Statement.generate]
    exact hasOutcomes_freshLabel.bind fun _ => condition.hasOutcomes.bind fun _ =>
      (hasOutcomes_emit _).bind fun _ =>
      (hasOutcomes_emit _).bind fun _ => (hasOutcomes_generateStatements body).bind fun _ =>
        (hasOutcomes_emit _).bind fun _ => (hasOutcomes_emit _).bind fun _ =>
          (hasOutcomes_generateStatements alternative).bind fun _ => hasOutcomes_emit _
  | .while condition body => by
    rw [Statement.generate]
    exact hasOutcomes_freshLabel.bind fun _ => (hasOutcomes_emit _).bind fun _ =>
      condition.hasOutcomes.bind fun _ =>
      (hasOutcomes_emit _).bind fun _ => (hasOutcomes_emit _).bind fun _ =>
        (hasOutcomes_generateStatements body).bind fun _ => (hasOutcomes_emit _).bind fun _ =>
          hasOutcomes_emit _
  | .do call => by
    rw [Statement.generate]
    exact call.hasOutcomes.bind fun _ => hasOutcomes_emit _
  | .return (some value) => by
    rw [Statement.generate]
    exact value.hasOutcomes.bind fun _ => hasOutcomes_emit _
  | .return none => by
    rw [Statement.generate]
    exact (hasOutcomes_emit _).bind fun _ => hasOutcomes_emit _

theorem hasOutcomes_generateStatements :
    ∀ body : List Statement, HasOutcomes (generateStatements body)
  | [] => by
    rw [generateStatements]
    exact .pure _
  | s :: rest => by
    rw [generateStatements]
    exact s.hasOutcomes.bind fun _ => hasOutcomes_generateStatements rest

end

/-! ### Declarations -/

theorem hasOutcomes_defineAll (type : String) (kind : VarKind) (names : List Ident) :
    (defineAll type kind names).HasOutcomes := by
  induction names with
  | nil => exact .pure _
  | cons x rest ih => exact (hasOutcomes_define _ _ _ _).bind fun _ => ih

theorem hasOutcomes_defineParameters (parameters : List Parameter) :
    (defineParameters parameters).HasOutcomes := by
  induction parameters with
  | nil => exact .pure _
  | cons p rest ih => exact (hasOutcomes_define _ _ _ _).bind fun _ => ih

theorem hasOutcomes_defineLocals (locals : List VarDec) : (defineLocals locals).HasOutcomes := by
  induction locals with
  | nil => exact .pure _
  | cons d rest ih => exact (hasOutcomes_defineAll _ _ _).bind fun _ => ih

theorem hasOutcomes_defineClassVars (vars : List ClassVarDec) :
    (defineClassVars vars).HasOutcomes := by
  induction vars with
  | nil => exact .pure _
  | cons d rest ih => exact (hasOutcomes_defineAll _ _ _).bind fun _ => ih

theorem hasOutcomes_objectSetup (kind : SubroutineKind) : (objectSetup kind).HasOutcomes := by
  cases kind with
  | function => exact .pure _
  | constructor =>
    exact (hasOutcomes_countOf _).bind fun _ => (hasOutcomes_emit _).bind fun _ =>
      (hasOutcomes_emit _).bind fun _ =>
      hasOutcomes_emit _
  | method => exact (hasOutcomes_emit _).bind fun _ => hasOutcomes_emit _

theorem Subroutine.hasOutcomes_declare (s : Subroutine) : HasOutcomes s.declare := by
  have hvariables : HasOutcomes (do defineParameters s.parameters; defineLocals s.locals) :=
    (hasOutcomes_defineParameters _).bind fun _ => hasOutcomes_defineLocals _
  refine hasOutcomes_resetSymbols.bind fun _ => ?_
  dsimp only
  split
  · exact .get_bind (fun _ => (hasOutcomes_define _ _ _ _).bind fun _ => hvariables) fun _ _ => rfl
  · exact hvariables

theorem Subroutine.hasOutcomes (s : Subroutine) : HasOutcomes s.generate :=
  s.hasOutcomes_declare.bind fun _ => (hasOutcomes_qualified _).bind fun _ =>
    (hasOutcomes_countOf _).bind fun _ =>
    (hasOutcomes_emit _).bind fun _ => (hasOutcomes_objectSetup _).bind fun _ =>
      hasOutcomes_generateStatements _

theorem hasOutcomes_generateSubroutines (subroutines : List Subroutine) :
    HasOutcomes (generateSubroutines subroutines) := by
  induction subroutines with
  | nil => exact .pure _
  | cons s rest ih => exact s.hasOutcomes.bind fun _ => ih

/-- **A class has the same outcome in front of all sinks.** -/
theorem Class.hasOutcomes (c : Class) : HasOutcomes c.generate := by
  have hname : HasOutcomes (modify fun g => { g with className := c.name.name }) := fun g =>
    ⟨[], .ok (), { g with className := c.name.name }, .silent nofun fun _ => rfl⟩
  exact hname.bind fun _ => (hasOutcomes_defineClassVars _).bind fun _ =>
    hasOutcomes_generateSubroutines _

/-! ### Classes -/

namespace Generator

variable {g g' : Generator} {c : Class} {commands : List Command}
  {result : Except CompileError Unit} {s : Sink} {room : Nat}

theorem compile_of_fits (h : c.generate.Outcome g commands result g') (hs : s.Fits commands) :
    (g.onto s).compile c = (result, g'.onto (s.writeAll commands)) := by
  have hrun : c.generate.run (g.onto s) = _ := h.fits s hs
  unfold compile
  rw [hrun]
  cases result <;> rfl

theorem compile_of_not_fits (h : c.generate.Outcome g commands result g') (hs : ¬s.Fits commands) :
    ∃ g'', (g.onto s).compile c = (.error .sinkFull, g'') ∧ g''.sink = s.writeAll commands := by
  obtain ⟨g'', hrun, hsink⟩ := h.full s hs
  replace hrun : c.generate.run (g.onto s) = _ := hrun
  refine ⟨g'', ?_, hsink⟩
  unfold compile
  rw [hrun]

/-- **A full sink cuts the output.**  The bytes that a class has in front of a sink that takes
everything are written as far as there is room.  If all of them fit, the result is the same, too,
and so is the generator apart from its sink.  Otherwise the error is that the sink is full, whatever
the result would have been. -/
theorem compile_into_limited_sink (c : Class) (hsound : g.sink.Sound)
    (hroom : g.sink.room = some room) :
    let full := (g.onto .unlimited).compile c
    let bytes := full.2.sink.bytes
    let limited := g.compile c
    full.1 ≠ .error .sinkFull ∧ limited.2.sink.Sound ∧
      (bytes.length ≤ room → limited.1 = full.1 ∧ limited.2 = full.2.onto limited.2.sink ∧
        limited.2.sink.bytes = g.sink.bytes ++ bytes) ∧
      (room < bytes.length → limited.1 = .error .sinkFull ∧
        limited.2.sink.bytes = g.sink.bytes ++ bytes.take room) := by
  intro full bytes limited
  obtain ⟨commands, result, g', houtcome⟩ := c.hasOutcomes g
  have hfull : full = (result, g'.onto (Sink.unlimited.writeAll commands)) :=
    compile_of_fits houtcome Sink.fits_unlimited
  have hbytes : bytes = commands.flatMap lineBytes := by
    show full.2.sink.bytes = _
    rw [hfull]
    exact Sink.bytes_writeAll_unlimited commands
  have hwritten : (g.sink.writeAll commands).bytes = _ := Sink.bytes_writeAll hsound hroom
  have hfits : g.sink.Fits commands ↔ bytes.length ≤ room := by
    unfold Sink.Fits
    rw [hroom, hbytes]
    simp
  by_cases hle : g.sink.Fits commands
  · have hlimited : limited = (result, g'.onto (g.sink.writeAll commands)) :=
      compile_of_fits houtcome hle
    have hall : (commands.flatMap lineBytes).take room = bytes := by
      rw [← hbytes]
      exact List.take_of_length_le (hfits.mp hle)
    rw [hlimited, hfull]
    refine ⟨houtcome.ne_full, Sink.sound_writeAll hsound, fun _ => ⟨rfl, rfl, ?_⟩, fun hless => ?_⟩
    · rw [← hall]
      exact hwritten
    · exact absurd (hfits.mp hle) (Nat.not_le.mpr hless)
  · obtain ⟨g'', hcompile, hsink⟩ := compile_of_not_fits houtcome hle
    have hlimited : limited = (.error .sinkFull, g'') := hcompile
    rw [hlimited, hfull]
    refine ⟨houtcome.ne_full, hsink ▸ Sink.sound_writeAll hsound,
      fun hless => absurd (hfits.mpr hless) hle, fun _ => ⟨rfl, ?_⟩⟩
    rw [hsink, hbytes]
    exact hwritten

/-- A class that uses a name without a variable, and a sink that is full before the name is met. -/
theorem compile_into_limited_sink_spin :
    let g := new (.limited 10)
    ((g.onto .unlimited).compile spinClass).1 = .error (.undefined "x" default .inAssignment) ∧
      (g.compile spinClass).1 = .error .sinkFull ∧
        (g.compile spinClass).2.sink.bytes = "function S".toUTF8.toList := by
  intro g
  have hbytes : ((g.onto .unlimited).compile spinClass).2.sink.bytes =
      ("function Spin.spin 0\nlabel WHILE_EXP_0\n" ++
      "push constant 0\nnot\nnot\nif-goto WHILE_END_0\n").toUTF8.data.toList := by
    rw [Sink.bytes, toList_byteArray]
    cbv
  obtain ⟨-, -, -, hcut⟩ := compile_into_limited_sink (g := g) spinClass (.inl rfl) rfl
  rw [hbytes] at hcut
  obtain ⟨hresult, htaken⟩ := hcut (by decide)
  refine ⟨by cbv, hresult, htaken.trans ?_⟩
  rw [Sink.bytes, toList_byteArray, toList_byteArray]
  decide

end Generator

end JackToolchain.Jack
