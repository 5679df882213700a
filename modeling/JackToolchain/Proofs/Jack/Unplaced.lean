import JackToolchain.Jack.Generator
import JackToolchain.Jack.Markup

/-!
# Trees and errors without their places

Trees and errors carry places of the source, which later messages cite.  Here places are taken out:
`unplaced` puts one fixed span where a span has been.  Two trees that are the same without their
places differ in nothing but where things stand.

What does not look at places does not see the difference.  The markup of a tree is the same
(`Class.markup_unplaced`), and so are the commands that it generates (`Class.generate_unplaced`):
taking places out in front of the generator comes to taking them out of the error that it may stop
with.

An error cites one place at most, and `CompileError.message_eq` says where its message has it.
-/

namespace JackToolchain.Jack

/-! ### Trees -/

/-- The span that stands for any span. -/
def Span.none : Span := ⟨0, 0, 0, 0⟩

/-- A name without its place. -/
def Ident.unplaced (x : Ident) : Ident := ⟨x.name, .none⟩

/-- A type without its place. -/
def TypeName.unplaced : TypeName → TypeName
  | .named x => .named x.unplaced
  | .int => .int
  | .char => .char
  | .boolean => .boolean

/-- A return type without its place. -/
def ReturnType.unplaced : ReturnType → ReturnType
  | .void => .void
  | .value type => .value type.unplaced

/-- A literal without its place. -/
def Literal.unplaced : Literal → Literal
  | .string contents _ => .string contents .none
  | .int value digits => .int value digits
  | .true => .true
  | .false => .false
  | .null => .null
  | .this => .this

mutual

/-- A term without places. -/
def Term.unplaced : Term → Term
  | .literal value => .literal value.unplaced
  | .var x => .var x.unplaced
  | .element array subscript => .element array.unplaced subscript.unplaced
  | .call call => .call call.unplaced
  | .paren inner => .paren inner.unplaced
  | .unary op operand => .unary op operand.unplaced

/-- An expression without places. -/
def Expr.unplaced : Expr → Expr
  | .mk head tail => .mk head.unplaced (operandsUnplaced tail)

/-- Operands without places. -/
def operandsUnplaced : List Operand → List Operand
  | [] => []
  | .mk op term :: rest => .mk op term.unplaced :: operandsUnplaced rest

/-- A call without places. -/
def Call.unplaced : Call → Call
  | .mk receiver name _ args =>
    .mk (receiver.map Ident.unplaced) name.unplaced .none (argsUnplaced args)

/-- Arguments without places. -/
def argsUnplaced : List Expr → List Expr
  | [] => []
  | arg :: rest => arg.unplaced :: argsUnplaced rest

end

mutual

/-- A statement without places. -/
def Statement.unplaced : Statement → Statement
  | .assign target value => .assign target.unplaced value.unplaced
  | .assignElement array subscript value =>
    .assignElement array.unplaced subscript.unplaced value.unplaced
  | .ifThen condition body => .ifThen condition.unplaced (statementsUnplaced body)
  | .ifElse condition body alternative =>
    .ifElse condition.unplaced (statementsUnplaced body) (statementsUnplaced alternative)
  | .while condition body => .while condition.unplaced (statementsUnplaced body)
  | .do call => .do call.unplaced
  | .return value => .return (value.map Expr.unplaced)

/-- Statements without places. -/
def statementsUnplaced : List Statement → List Statement
  | [] => []
  | s :: rest => s.unplaced :: statementsUnplaced rest

end

/-- A parameter without its places. -/
def Parameter.unplaced (p : Parameter) : Parameter := ⟨p.type.unplaced, p.name.unplaced⟩

/-- A declaration of local variables without its places. -/
def VarDec.unplaced (d : VarDec) : VarDec := ⟨d.type.unplaced, d.names.map Ident.unplaced⟩

/-- A subroutine without places. -/
def Subroutine.unplaced (s : Subroutine) : Subroutine where
  kind := s.kind
  returns := s.returns.unplaced
  name := s.name.unplaced
  parameters := s.parameters.map Parameter.unplaced
  locals := s.locals.map VarDec.unplaced
  body := statementsUnplaced s.body

/-- A declaration of class variables without its places. -/
def ClassVarDec.unplaced (d : ClassVarDec) : ClassVarDec :=
  ⟨d.kind, d.type.unplaced, d.names.map Ident.unplaced⟩

/-- A class without places. -/
def Class.unplaced (c : Class) : Class where
  name := c.name.unplaced
  classVars := c.classVars.map ClassVarDec.unplaced
  subroutines := c.subroutines.map Subroutine.unplaced

/-- An operand without places. -/
def Operand.unplaced : Operand → Operand
  | .mk op term => .mk op term.unplaced

theorem operandsUnplaced_eq_map (operands : List Operand) :
    operandsUnplaced operands = operands.map Operand.unplaced := by
  induction operands with
  | nil => rfl
  | cons operand operands ih =>
    obtain ⟨op, term⟩ := operand
    rw [operandsUnplaced, ih]
    rfl

theorem argsUnplaced_eq_map (args : List Expr) : argsUnplaced args = args.map Expr.unplaced := by
  induction args with
  | nil => rfl
  | cons arg args ih =>
    rw [argsUnplaced, ih]
    rfl

theorem statementsUnplaced_eq_map (body : List Statement) :
    statementsUnplaced body = body.map Statement.unplaced := by
  induction body with
  | nil => rfl
  | cons s body ih =>
    rw [statementsUnplaced, ih]
    rfl

/-! ### Errors -/

/-- A token without its place. -/
def Token.unplaced (t : Token) : Token := ⟨t.toLexeme, .none⟩

namespace LexError

/-- A lexical error without its place. -/
def unplaced (e : LexError) : LexError := ⟨e.fault, 0, 0⟩

/-- How the message of a lexical error cites its place. -/
def place (e : LexError) : String := toString e.line ++ ":" ++ toString e.column

end LexError

namespace SyntaxError

/-- A syntax error without its place. -/
def unplaced : SyntaxError → SyntaxError
  | .mismatch expected found => .mismatch expected found.unplaced
  | .unexpected expected found => .unexpected expected found.unplaced
  | .endOfSource => .endOfSource
  | .lexical e => .lexical e.unplaced

/-- The place that a message begins with, if it does. -/
def place : SyntaxError → String
  | .mismatch _ found | .unexpected _ found => found.span.place
  | .endOfSource => ""
  | .lexical e => e.place

/-- What a message says behind the place. -/
def details : SyntaxError → String
  | .mismatch expected found =>
    ": expected " ++ expected.description ++ ", found " ++ found.describe
  | .unexpected expected found => ": expected " ++ expected ++ ", found " ++ found.describe
  | .endOfSource => "unexpected end of source code"
  | .lexical e => ": " ++ e.fault.message

theorem message_eq (e : SyntaxError) : e.message = e.place ++ e.details := by
  cases e with
  | mismatch => simp only [message, place, details, String.append_assoc]
  | unexpected => simp only [message, place, details, String.append_assoc]
  | endOfSource => rfl
  | lexical =>
    simp only [message, LexError.message, place, LexError.place, details, String.append_assoc]

theorem details_unplaced (e : SyntaxError) : e.unplaced.details = e.details := by
  cases e <;> rfl

end SyntaxError

namespace CompileError

/-- A compilation error without its place. -/
def unplaced : CompileError → CompileError
  | .lexical e => .lexical e.unplaced
  | .syntactic e => .syntactic e.unplaced
  | .undefined name _ use => .undefined name .none use
  | .tooMany quota _ => .tooMany quota .none
  | .sinkFull => .sinkFull

theorem unplaced_ofSyntax (e : SyntaxError) : (ofSyntax e).unplaced = ofSyntax e.unplaced := by
  cases e <;> rfl

/-- What a message says in front of the place. -/
def heading : CompileError → String
  | .lexical _ => "lexical error: "
  | .syntactic _ => "syntax error: "
  | .undefined .. => "resolution error: "
  | .tooMany .. => "limit error: "
  | .sinkFull => ""

/-- The place that a message cites, if it does. -/
def place : CompileError → String
  | .lexical e => e.place
  | .syntactic e => e.place
  | .undefined _ span _ | .tooMany _ span => span.place
  | .sinkFull => ""

/-- What a message says behind the place. -/
def details : CompileError → String
  | .lexical e => ": " ++ e.fault.message
  | .syntactic e => e.details
  | .undefined name _ use => ": undefined variable '" ++ name ++ "' in " ++ use.description
  | .tooMany quota _ => ": number of " ++ quota.description ++ " exceeds " ++ toString Word.maxNat
  | .sinkFull => "failed to write whole buffer"

/-- **Where a message has the place.** -/
theorem message_eq (e : CompileError) : e.message = e.heading ++ e.place ++ e.details := by
  -- The parts are shown as they are joined; to unfold `message` would make Lean compute the
  -- greatest count.
  cases e with
  | lexical e =>
    show "lexical error: " ++ e.message = "lexical error: " ++ e.place ++ (": " ++ e.fault.message)
    simp only [LexError.message, LexError.place, String.append_assoc]
  | syntactic e =>
    show "syntax error: " ++ e.message = "syntax error: " ++ e.place ++ e.details
    rw [e.message_eq, String.append_assoc]
  | undefined name span use =>
    show "resolution error: " ++ span.place ++ ": undefined variable '" ++ name ++ "' in "
        ++ use.description =
      "resolution error: " ++ span.place
        ++ (": undefined variable '" ++ name ++ "' in " ++ use.description)
    simp only [String.append_assoc]
  | tooMany quota span =>
    show "limit error: " ++ span.place ++ ": number of " ++ quota.description ++ " exceeds "
        ++ toString Word.maxNat =
      "limit error: " ++ span.place
        ++ (": number of " ++ quota.description ++ " exceeds " ++ toString Word.maxNat)
    simp only [String.append_assoc]
  | sinkFull => rfl

theorem heading_unplaced (e : CompileError) : e.unplaced.heading = e.heading := by
  cases e <;> rfl

theorem details_unplaced (e : CompileError) : e.unplaced.details = e.details := by
  cases e with
  | syntactic e => exact e.details_unplaced
  | lexical | undefined | tooMany | sinkFull => rfl

end CompileError

/-! ### Markup -/

section Markup

@[simp] theorem Ident.markup_unplaced (x : Ident) : x.unplaced.markup = x.markup := rfl

@[simp] theorem TypeName.markup_unplaced (type : TypeName) :
    type.unplaced.markup = type.markup := by
  cases type <;> rfl

@[simp] theorem ReturnType.markup_unplaced (type : ReturnType) :
    type.unplaced.markup = type.markup := by
  cases type with
  | void => rfl
  | value type => exact type.markup_unplaced

@[simp] theorem Literal.lexeme_unplaced (value : Literal) :
    value.unplaced.lexeme = value.lexeme := by
  cases value <;> rfl

mutual

theorem Term.markup_unplaced (t : Term) : t.unplaced.markup = t.markup := by
  cases t with
  | literal value => simp [Term.unplaced, Term.markup]
  | var x => simp [Term.unplaced, Term.markup]
  | element array subscript => simp [Term.unplaced, Term.markup, subscript.markup_unplaced]
  | call call => simp [Term.unplaced, Term.markup, call.markup_unplaced]
  | paren inner => simp [Term.unplaced, Term.markup, inner.markup_unplaced]
  | unary op operand => simp [Term.unplaced, Term.markup, operand.markup_unplaced]

theorem Expr.markup_unplaced (e : Expr) : e.unplaced.markup = e.markup := by
  obtain ⟨head, tail⟩ := e
  simp [Expr.unplaced, Expr.markup, head.markup_unplaced, operandsMarkup_unplaced tail]

theorem operandsMarkup_unplaced (operands : List Operand) :
    operandsMarkup (operandsUnplaced operands) = operandsMarkup operands := by
  match operands with
  | [] => rfl
  | .mk op term :: rest =>
    simp [operandsUnplaced, operandsMarkup, term.markup_unplaced, operandsMarkup_unplaced rest]

theorem Call.markup_unplaced (call : Call) : call.unplaced.markup = call.markup := by
  obtain ⟨receiver, name, paren, args⟩ := call
  cases receiver <;> simp [Call.unplaced, Call.markup, argsMarkup_unplaced args]

theorem argsMarkup_unplaced (args : List Expr) :
    argsMarkup (argsUnplaced args) = argsMarkup args := by
  match args with
  | [] => rfl
  | [arg] => simp [argsUnplaced, argsMarkup, arg.markup_unplaced]
  | arg :: arg' :: rest =>
    have hrest := argsMarkup_unplaced (arg' :: rest)
    rw [argsUnplaced] at hrest
    simp [argsUnplaced, argsMarkup, arg.markup_unplaced, hrest]

end

theorem Expr.conditionMarkup_unplaced (e : Expr) :
    e.unplaced.conditionMarkup = e.conditionMarkup := by
  unfold conditionMarkup
  rw [e.markup_unplaced]

mutual

theorem Statement.markup_unplaced (s : Statement) : s.unplaced.markup = s.markup := by
  cases s with
  | assign target value => simp [Statement.unplaced, Statement.markup, value.markup_unplaced]
  | assignElement array subscript value =>
    simp [Statement.unplaced, Statement.markup, subscript.markup_unplaced, value.markup_unplaced]
  | ifThen condition body =>
    simp [Statement.unplaced, Statement.markup, condition.conditionMarkup_unplaced,
      statementsMarkup_unplaced body]
  | ifElse condition body alternative =>
    simp [Statement.unplaced, Statement.markup, condition.conditionMarkup_unplaced,
      statementsMarkup_unplaced body, statementsMarkup_unplaced alternative]
  | «while» condition body =>
    simp [Statement.unplaced, Statement.markup, condition.conditionMarkup_unplaced,
      statementsMarkup_unplaced body]
  | «do» call => simp [Statement.unplaced, Statement.markup, call.markup_unplaced]
  | «return» value =>
    cases value with
    | none => rfl
    | some value => simp [Statement.unplaced, Statement.markup, value.markup_unplaced]

theorem statementsMarkup_unplaced (body : List Statement) :
    statementsMarkup (statementsUnplaced body) = statementsMarkup body := by
  match body with
  | [] => rfl
  | s :: rest =>
    simp [statementsUnplaced, statementsMarkup, s.markup_unplaced, statementsMarkup_unplaced rest]

end

@[simp] theorem namesMarkup_unplaced (names : List Ident) :
    namesMarkup (names.map Ident.unplaced) = namesMarkup names := by
  unfold namesMarkup
  rw [List.map_map]
  rfl

@[simp] theorem VarDec.markup_unplaced (d : VarDec) : d.unplaced.markup = d.markup := by
  simp [VarDec.unplaced, VarDec.markup]

@[simp] theorem ClassVarDec.markup_unplaced (d : ClassVarDec) : d.unplaced.markup = d.markup := by
  simp [ClassVarDec.unplaced, ClassVarDec.markup]

@[simp] theorem Subroutine.markup_unplaced (s : Subroutine) : s.unplaced.markup = s.markup := by
  simp [Subroutine.unplaced, Subroutine.markup, Parameter.unplaced, Function.comp_def,
    statementsMarkup_unplaced]

/-- **Markup has no places.** -/
theorem Class.markup_unplaced (c : Class) : c.unplaced.markup = c.markup := by
  simp [Class.unplaced, Class.markup, Function.comp_def]

end Markup

/-! ### Generation -/

namespace Generation

variable {α β : Type}

/-- A computation whose errors come without their places. -/
def unplaced (m : Generation α) : Generation α := fun g =>
  match m g with
  | .ok a g => .ok a g
  | .error e g => .error e.unplaced g

@[simp] theorem unplaced_pure (a : α) : unplaced (pure a) = pure a := rfl

@[simp] theorem unplaced_bind (m : Generation α) (f : α → Generation β) :
    unplaced (m >>= f) = unplaced m >>= fun a => unplaced (f a) := by
  funext g
  show unplaced (EStateM.bind m f) g = EStateM.bind (unplaced m) (fun a => unplaced (f a)) g
  unfold unplaced EStateM.bind
  dsimp only
  cases m g <;> rfl

@[simp] theorem unplaced_map (f : α → β) (m : Generation α) :
    unplaced (f <$> m) = f <$> unplaced m := by
  rw [map_eq_pure_bind, map_eq_pure_bind, unplaced_bind]
  rfl

@[simp] theorem unplaced_get : unplaced (get : Generation Generator) = get := rfl

@[simp] theorem unplaced_modify (f : Generator → Generator) : unplaced (modify f) = modify f := rfl

@[simp] theorem unplaced_emit (c : VM.Command) : unplaced (emit c) = emit c := by
  funext ⟨sink, symbols, className, labels⟩
  unfold unplaced emit
  dsimp only
  cases sink.hasRoomFor c <;> rfl

@[simp] theorem unplaced_freshLabel : unplaced freshLabel = freshLabel := rfl

@[simp] theorem unplaced_define (name type : String) (kind : VarKind) (span : Span) :
    unplaced (define name type kind span) = define name type kind .none := by
  funext ⟨sink, symbols, className, labels⟩
  unfold unplaced define
  dsimp only
  rcases symbols.define name type kind with ⟨v | v, symbols'⟩ <;> rfl

@[simp] theorem unplaced_resetSymbols : unplaced resetSymbols = resetSymbols := rfl

@[simp] theorem unplaced_lookup (x : Ident) : unplaced (lookup x) = lookup x.unplaced := rfl

@[simp] theorem unplaced_resolve (x : Ident) (use : Use) :
    unplaced (resolve x use) = resolve x.unplaced use := by
  unfold resolve
  rw [unplaced_bind, unplaced_lookup]
  refine congrArg _ (funext fun v => ?_)
  cases v <;> rfl

@[simp] theorem unplaced_qualified (x : Ident) : unplaced (qualified x) = qualified x.unplaced :=
  rfl

@[simp] theorem unplaced_counted (n : Nat) (quota : Quota) (span : Span) :
    unplaced (counted n quota span) = counted n quota .none := by
  unfold counted
  cases Word.ofNat? n <;> rfl

@[simp] theorem unplaced_countOf (kind : VarKind) : unplaced (countOf kind) = countOf kind := rfl

@[simp] theorem unplaced_pushConstant (w : Word) : unplaced (pushConstant w) = pushConstant w :=
  unplaced_emit _

@[simp] theorem unplaced_pushVariable (v : Variable) : unplaced (pushVariable v) = pushVariable v :=
  unplaced_emit _

@[simp] theorem unplaced_appendUnits (units : List Word) :
    unplaced (appendUnits units) = appendUnits units := by
  induction units with
  | nil => rfl
  | cons unit units ih => simp [appendUnits, ih]

@[simp] theorem unplaced_literal (value : Literal) :
    unplaced (literal value) = literal value.unplaced := by
  cases value <;> simp [literal, stringConstant, Literal.unplaced]

@[simp] theorem unplaced_receiver (object : Option Ident) (name : Ident) :
    unplaced (receiver object name) = receiver (object.map Ident.unplaced) name.unplaced := by
  unfold receiver
  cases object with
  | none => simp
  | some object =>
    simp only [Option.map_some, unplaced_bind, unplaced_lookup]
    refine congrArg _ (funext fun v => ?_)
    cases v <;> simp [Ident.unplaced]

end Generation

open Generation

mutual

theorem Term.generate_unplaced (t : Term) :
    t.unplaced.generate = Generation.unplaced t.generate := by
  cases t with
  | literal value => simp [Term.unplaced, Term.generate]
  | var x => simp [Term.unplaced, Term.generate]
  | element array subscript => simp [Term.unplaced, Term.generate, subscript.generate_unplaced]
  | call call => simp [Term.unplaced, Term.generate, call.generate_unplaced]
  | paren inner => simp [Term.unplaced, Term.generate, inner.generate_unplaced]
  | unary op operand => simp [Term.unplaced, Term.generate, operand.generate_unplaced]

theorem Expr.generate_unplaced (e : Expr) :
    e.unplaced.generate = Generation.unplaced e.generate := by
  obtain ⟨head, tail⟩ := e
  simp [Expr.unplaced, Expr.generate, head.generate_unplaced, generateOperands_unplaced tail]

theorem generateOperands_unplaced (operands : List Operand) :
    generateOperands (operandsUnplaced operands) =
      Generation.unplaced (generateOperands operands) := by
  match operands with
  | [] => rfl
  | .mk op term :: rest =>
    simp [operandsUnplaced, generateOperands, term.generate_unplaced,
      generateOperands_unplaced rest]

theorem Call.generate_unplaced (call : Call) :
    call.unplaced.generate = Generation.unplaced call.generate := by
  obtain ⟨object, name, paren, args⟩ := call
  have hlength : (argsUnplaced args).length = args.length := by
    rw [argsUnplaced_eq_map, List.length_map]
  simp [Call.unplaced, Call.generate, generateArgs_unplaced args, hlength]

theorem generateArgs_unplaced (args : List Expr) :
    generateArgs (argsUnplaced args) = Generation.unplaced (generateArgs args) := by
  match args with
  | [] => rfl
  | arg :: rest =>
    simp [argsUnplaced, generateArgs, arg.generate_unplaced, generateArgs_unplaced rest]

end

mutual

theorem Statement.generate_unplaced (s : Statement) :
    s.unplaced.generate = Generation.unplaced s.generate := by
  cases s with
  | assign target value => simp [Statement.unplaced, Statement.generate, value.generate_unplaced]
  | assignElement array subscript value =>
    simp [Statement.unplaced, Statement.generate, subscript.generate_unplaced,
      value.generate_unplaced]
  | ifThen condition body =>
    simp [Statement.unplaced, Statement.generate, condition.generate_unplaced,
      generateStatements_unplaced body]
  | ifElse condition body alternative =>
    simp [Statement.unplaced, Statement.generate, condition.generate_unplaced,
      generateStatements_unplaced body, generateStatements_unplaced alternative]
  | «while» condition body =>
    simp [Statement.unplaced, Statement.generate, condition.generate_unplaced,
      generateStatements_unplaced body]
  | «do» call => simp [Statement.unplaced, Statement.generate, call.generate_unplaced]
  | «return» value =>
    cases value with
    | none => simp [Statement.unplaced, Statement.generate]
    | some value => simp [Statement.unplaced, Statement.generate, value.generate_unplaced]

theorem generateStatements_unplaced (body : List Statement) :
    generateStatements (statementsUnplaced body) =
      Generation.unplaced (generateStatements body) := by
  match body with
  | [] => rfl
  | s :: rest =>
    simp [statementsUnplaced, generateStatements, s.generate_unplaced,
      generateStatements_unplaced rest]

end

@[simp] theorem TypeName.name_unplaced (type : TypeName) : type.unplaced.name = type.name := by
  cases type <;> rfl

theorem defineAll_unplaced (type : String) (kind : VarKind) (names : List Ident) :
    defineAll type kind (names.map Ident.unplaced) =
      Generation.unplaced (defineAll type kind names) := by
  induction names with
  | nil => rfl
  | cons x names ih => simp [defineAll, ih, Ident.unplaced]

theorem defineParameters_unplaced (parameters : List Parameter) :
    defineParameters (parameters.map Parameter.unplaced) =
      Generation.unplaced (defineParameters parameters) := by
  induction parameters with
  | nil => rfl
  | cons p parameters ih => simp [defineParameters, ih, Parameter.unplaced, Ident.unplaced]

theorem defineLocals_unplaced (locals : List VarDec) :
    defineLocals (locals.map VarDec.unplaced) = Generation.unplaced (defineLocals locals) := by
  induction locals with
  | nil => rfl
  | cons d locals ih => simp [defineLocals, ih, VarDec.unplaced, defineAll_unplaced]

theorem defineClassVars_unplaced (vars : List ClassVarDec) :
    defineClassVars (vars.map ClassVarDec.unplaced) =
      Generation.unplaced (defineClassVars vars) := by
  induction vars with
  | nil => rfl
  | cons d vars ih => simp [defineClassVars, ih, ClassVarDec.unplaced, defineAll_unplaced]

theorem objectSetup_unplaced (kind : SubroutineKind) :
    Generation.unplaced (objectSetup kind) = objectSetup kind := by
  cases kind <;> simp [objectSetup]

theorem Subroutine.declare_unplaced (s : Subroutine) :
    s.unplaced.declare = Generation.unplaced s.declare := by
  unfold Subroutine.declare
  by_cases hkind : s.kind = .method <;>
    simp [hkind, Subroutine.unplaced, Ident.unplaced, defineParameters_unplaced,
      defineLocals_unplaced]

theorem Subroutine.generate_unplaced (s : Subroutine) :
    s.unplaced.generate = Generation.unplaced s.generate := by
  simp only [Subroutine.generate, declare_unplaced, unplaced_bind, unplaced_qualified,
    unplaced_countOf, unplaced_emit, objectSetup_unplaced]
  simp only [Subroutine.unplaced, generateStatements_unplaced]

theorem generateSubroutines_unplaced (subroutines : List Subroutine) :
    generateSubroutines (subroutines.map Subroutine.unplaced) =
      Generation.unplaced (generateSubroutines subroutines) := by
  induction subroutines with
  | nil => rfl
  | cons s subroutines ih => simp [generateSubroutines, ih, Subroutine.generate_unplaced]

/-- **Generation does not look at places.**  It differs in nothing but the places in its error. -/
theorem Class.generate_unplaced (c : Class) :
    c.unplaced.generate = Generation.unplaced c.generate := by
  simp [Class.generate, Class.unplaced, Ident.unplaced, defineClassVars_unplaced,
    generateSubroutines_unplaced]

end JackToolchain.Jack
