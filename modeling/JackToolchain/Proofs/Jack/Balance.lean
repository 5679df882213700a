import JackToolchain.Proofs.Jack.FunctionBlocks
import JackToolchain.Proofs.VM.StackDepth

/-!
# Compiled functions are balanced

The code of an expression finds its operands above whatever is on the stack and leaves one word
there (`Expr.lifts`).  The code of statements begins and ends with an empty stack, and so do the
parts of a statement that jumps lead into or out of (`depthBehind_statementsCode`).  So every
function of a compiled class is balanced, on all of its paths, and the stretch of each expression in
it rises by one (`balanced_of_compile`).

Its jumps have targets, too, and its commands have their cells.  So a compiled function does not get
stuck (`neverStuck_of_compile`).
-/

namespace JackToolchain.Jack

open VM (Balanced Command Environment Machine Config Reaches Rises depthBehind depthBehind_append
    depthBehind_cons
  readProgram step)

/-! ### Expressions -/

/-- From `m` words above anything else on the stack, the commands make `n`. -/
def Lifts (code : List Command) (m n : Nat) : Prop :=
  ∀ below, depthBehind (below + m) code = some (below + n)

namespace Lifts

variable {xs ys : List Command} {c : Command} {l m n : Nat}

theorem nil (n : Nat) : Lifts [] n n := fun _ => rfl

theorem append (h : Lifts xs l m) (h' : Lifts ys m n) : Lifts (xs ++ ys) l n := fun below => by
  rw [depthBehind_append, h below]
  exact h' below

theorem single (hjoint : c.isJoint = false) (hpops : c.pops ≤ m) (hn : n = m - c.pops + c.pushes) :
    Lifts [c] m n := fun below => by
  have hc : c.depthBehind (below + m) = some (below + n) := by
    unfold Command.depthBehind
    rw [if_pos ⟨by omega, by simp [hjoint]⟩]
    congr 1
    omega
  rw [depthBehind_cons, hc]
  rfl

/-- What is above the rest of the stack may be deep in it for others. -/
theorem above (h : Lifts xs m n) (k : Nat) : Lifts xs (k + m) (k + n) := fun below => by
  rw [← Nat.add_assoc, ← Nat.add_assoc]
  exact h (below + k)

end Lifts

theorem lifts_push (segment : VM.Segment) (index : Word) (n : Nat) :
    Lifts [.push segment index] n (n + 1) :=
  .single rfl (Nat.zero_le n) rfl

theorem lifts_pop (segment : VM.Segment) (index : Word) (n : Nat) :
    Lifts [.pop segment index] (n + 1) n :=
  .single rfl (Nat.le_add_left 1 n) rfl

theorem lifts_unaryCommand (op : UnaryOp) : Lifts [Generation.unaryCommand op] 1 1 := by
  cases op <;> exact .single rfl (Nat.le_refl 1) rfl

theorem lifts_binaryCommand (op : BinaryOp) : Lifts [Generation.binaryCommand op] 2 1 := by
  cases op <;> exact .single rfl (Nat.le_refl 2) rfl

theorem lifts_call (name : String) {n : Nat} (hn : n ≤ Word.maxNat) :
    Lifts [.call name (BitVec.ofNat 16 n)] n 1 := by
  have hargs : (BitVec.ofNat 16 n).toNat = n := toNat_ofNat_of_le hn
  refine .single rfl hargs.le ?_
  show 1 = n - (BitVec.ofNat 16 n).toNat + 1
  rw [hargs, Nat.sub_self]

theorem lifts_appendCode (units : List Word) : Lifts (appendCode units) 1 1 := by
  induction units with
  | nil => exact .nil 1
  | cons unit rest ih =>
    exact ((lifts_push .constant unit 1).append (lifts_call "String.appendChar" (by decide))).append
      ih

theorem lifts_stringCode (contents : String) : Lifts (stringCode contents) 0 1 :=
  ((lifts_push .constant _ 0).append (lifts_call "String.new" (by decide))).append
    (lifts_appendCode _)

theorem Literal.lifts (value : Literal) : Lifts value.code 0 1 := by
  cases value with
  | int | false | null | this => exact lifts_push _ _ 0
  | string contents => exact lifts_stringCode contents
  | true => exact (lifts_push .constant 0 0).append (.single rfl (Nat.le_refl 1) rfl)

section
variable {names : Naming}

theorem Naming.lifts_pushCode {x : Ident} (h : (names.lookup x.name).isSome) (n : Nat) :
    Lifts (names.pushCode x) n (n + 1) := by
  obtain ⟨v, hv⟩ := Option.isSome_iff_exists.mp h
  unfold pushCode
  rw [hv]
  exact lifts_push _ _ n

theorem Naming.lifts_popCode {x : Ident} (h : (names.lookup x.name).isSome) (n : Nat) :
    Lifts (names.popCode x) (n + 1) n := by
  obtain ⟨v, hv⟩ := Option.isSome_iff_exists.mp h
  unfold popCode
  rw [hv]
  exact lifts_pop _ _ n

theorem Naming.lifts_receiverCode (receiver : Option Ident) :
    Lifts (names.receiverCode receiver) 0 (names.receiverCount receiver) := by
  cases receiver with
  | none => exact lifts_push .pointer 0 0
  | some x =>
    simp only [receiverCode, receiverCount, pushCode]
    cases names.lookup x.name with
    | none => exact .nil 0
    | some v => exact lifts_push _ _ 0

mutual

theorem Term.lifts : ∀ t : Term, t.Generable names → Lifts (t.code names) 0 1
  | .literal value, _ => by
    rw [Term.code]
    exact value.lifts
  | .var x, h => by
    rw [Term.Generable] at h
    rw [Term.code]
    exact names.lifts_pushCode h 0
  | .element array subscript, h => by
    rw [Term.Generable] at h
    rw [Term.code]
    have hsubscript : Lifts (subscript.code names) 1 2 := (subscript.lifts h.2).above 1
    have hadd : Lifts [.arith .add] 2 1 := .single rfl (Nat.le_refl 2) rfl
    exact ((names.lifts_pushCode h.1 0).append hsubscript).append
      ((hadd.append (lifts_pop .pointer 1 0)).append (lifts_push .that 0 0))
  | .call call, h => by
    rw [Term.Generable] at h
    rw [Term.code]
    exact call.lifts h
  | .paren inner, h => by
    rw [Term.Generable] at h
    rw [Term.code]
    exact inner.lifts h
  | .unary op operand, h => by
    rw [Term.Generable] at h
    rw [Term.code]
    exact (operand.lifts h).append (lifts_unaryCommand op)

/-- **An expression adds one word to the stack**, whatever is on it. -/
theorem Expr.lifts : ∀ e : Expr, e.Generable names → Lifts (e.code names) 0 1
  | .mk head tail, h => by
    rw [Expr.Generable] at h
    rw [Expr.code]
    exact (head.lifts h.1).append (lifts_operandsCode tail h.2)

theorem lifts_operandsCode :
    ∀ operands : List Operand, OperandsGenerable names operands →
      Lifts (operandsCode names operands) 1 1
  | [], _ => by
    rw [operandsCode]
    exact .nil 1
  | .mk op term :: rest, h => by
    rw [OperandsGenerable] at h
    rw [operandsCode, ← List.singleton_append]
    have hterm : Lifts (term.code names) 1 2 := (term.lifts h.1).above 1
    exact hterm.append ((lifts_binaryCommand op).append (lifts_operandsCode rest h.2))

theorem Call.lifts : ∀ call : Call, call.Generable names → Lifts (call.code names) 0 1
  | .mk receiver name _ args, h => by
    rw [Call.Generable] at h
    rw [Call.code]
    have hargs := (lifts_argsCode args h.1).above (names.receiverCount receiver)
    exact ((names.lifts_receiverCode receiver).append hargs).append (lifts_call _ h.2)

theorem lifts_argsCode :
    ∀ args : List Expr, ArgsGenerable names args → Lifts (argsCode names args) 0 args.length
  | [], _ => by
    rw [argsCode]
    exact .nil 0
  | arg :: rest, h => by
    rw [ArgsGenerable] at h
    rw [argsCode, List.length_cons, Nat.add_comm]
    exact (arg.lifts h.1).append ((lifts_argsCode rest h.2).above 1)

end

/-! ### Statements -/

theorem Lifts.depthBehind {code : List Command} {m n : Nat} (h : Lifts code m n) :
    depthBehind m code = some n := by
  have hzero := h 0
  rwa [Nat.zero_add, Nat.zero_add] at hzero

theorem depthBehind_trans {xs ys : List Command} {l m n : Nat} (h : depthBehind l xs = some m)
    (h' : depthBehind m ys = some n) : depthBehind l (xs ++ ys) = some n := by
  rw [depthBehind_append, h]
  exact h'

mutual

theorem Statement.depthBehind_code (n : Nat) :
    ∀ s : Statement, s.Generable names → depthBehind 0 (s.code names n) = some 0
  | .assign x value, h => by
    rw [Statement.Generable] at h
    rw [Statement.code]
    exact ((value.lifts h.2).append (names.lifts_popCode h.1 0)).depthBehind
  | .assignElement array subscript value, h => by
    rw [Statement.Generable] at h
    rw [Statement.code]
    have haddress : Lifts (names.pushCode array ++ subscript.code names ++ [.arith .add]) 0 1 :=
      ((names.lifts_pushCode h.1 0).append ((subscript.lifts h.2.1).above 1)).append
        (.single rfl (Nat.le_refl 2) rfl)
    have hvalue : Lifts (value.code names) 1 2 := (value.lifts h.2.2).above 1
    -- The value waits in a cell while the address is popped.
    exact depthBehind_trans (haddress.append hvalue).depthBehind rfl
  | .ifThen condition body, h => by
    rw [Statement.Generable] at h
    rw [Statement.code]
    have htest := depthBehind_trans (condition.lifts h.1).depthBehind
      (show depthBehind 1 [.arith .not, .ifGoto (ifEnd n)] = some 0 from rfl)
    exact depthBehind_trans (depthBehind_trans htest (depthBehind_statementsCode _ body h.2)) rfl
  | .ifElse condition body alternative, h => by
    rw [Statement.Generable] at h
    rw [Statement.code]
    have htest := depthBehind_trans (condition.lifts h.1).depthBehind
      (show depthBehind 1 [.arith .not, .ifGoto (ifElse n)] = some 0 from rfl)
    have hbody := depthBehind_trans htest (depthBehind_statementsCode (n + 1) body h.2.1)
    have hskip := depthBehind_trans hbody
      (show depthBehind 0 [.goto (ifEnd n), .label (ifElse n)] = some 0 from rfl)
    exact depthBehind_trans
      (depthBehind_trans hskip (depthBehind_statementsCode _ alternative h.2.2)) rfl
  | .while condition body, h => by
    rw [Statement.Generable] at h
    rw [Statement.code]
    have hcondition :=
      depthBehind_trans (show depthBehind 0 [.label (whileStart n)] = some 0 from rfl)
      (condition.lifts h.1).depthBehind
    have htest := depthBehind_trans hcondition
      (show depthBehind 1 [.arith .not, .ifGoto (whileEnd n)] = some 0 from rfl)
    exact depthBehind_trans (depthBehind_trans htest (depthBehind_statementsCode _ body h.2)) rfl
  | .do call, h => by
    rw [Statement.Generable] at h
    rw [Statement.code]
    exact ((call.lifts h).append (lifts_pop .temp 0 0)).depthBehind
  | .return (some value), h => by
    rw [Statement.Generable] at h
    rw [Statement.code]
    exact depthBehind_trans (value.lifts h).depthBehind rfl
  | .return none, _ => by
    rw [Statement.code]
    rfl

/-- **Statements keep the stack empty**, before and behind each of them. -/
theorem depthBehind_statementsCode (n : Nat) :
    ∀ body : List Statement, AllGenerable names body →
      depthBehind 0 (statementsCode names n body) = some 0
  | [], _ => by
    rw [statementsCode]
    rfl
  | s :: rest, h => by
    rw [AllGenerable] at h
    rw [statementsCode]
    exact depthBehind_trans (s.depthBehind_code n h.1) (depthBehind_statementsCode _ rest h.2)

end

theorem SubroutineKind.lifts_setupCode (fields : Nat) (kind : SubroutineKind) :
    Lifts (kind.setupCode fields) 0 0 := by
  cases kind with
  | function => exact .nil 0
  | constructor =>
    exact ((lifts_push .constant _ 0).append (lifts_call "Memory.alloc" (by decide))).append
      (lifts_pop .pointer 0 0)
  | method => exact (lifts_push .argument 0 0).append (lifts_pop .pointer 0 0)

/-- **The code of a subroutine is balanced.** -/
theorem Subroutine.exists_balanced {s : Subroutine} {c : Class} {outer : Scope} {n : Nat}
    (hg : AllGenerable (s.naming c outer) s.body) : ∃ depth, Balanced (s.code c outer n) depth := by
  have hsetup := (s.kind.lifts_setupCode (c.fieldCount outer)).depthBehind
  have hbody := depthBehind_trans hsetup (depthBehind_statementsCode n s.body hg)
  exact ⟨_, VM.balanced_of_depthBehind hbody⟩

/-! ### The expressions of a subroutine -/

mutual

/-- The expressions in a term. -/
def Term.expressions : Term → List Expr
  | .literal _ | .var _ => []
  | .element _ subscript => subscript.expressions
  | .call call => call.expressions
  | .paren inner => inner.expressions
  | .unary _ operand => operand.expressions

/-- An expression, and the expressions in its terms. -/
def Expr.expressions : Expr → List Expr
  | .mk head tail => .mk head tail :: (head.expressions ++ operandsExpressions tail)

/-- The expressions in operands. -/
def operandsExpressions : List Operand → List Expr
  | [] => []
  | .mk _ term :: rest => term.expressions ++ operandsExpressions rest

/-- The expressions in a call. -/
def Call.expressions : Call → List Expr
  | .mk _ _ _ args => argsExpressions args

/-- The expressions in arguments. -/
def argsExpressions : List Expr → List Expr
  | [] => []
  | arg :: rest => arg.expressions ++ argsExpressions rest

end

mutual

/-- The expressions in a statement. -/
def Statement.expressions : Statement → List Expr
  | .assign _ value => value.expressions
  | .assignElement _ subscript value => subscript.expressions ++ value.expressions
  | .ifThen condition body | .while condition body =>
    condition.expressions ++ statementsExpressions body
  | .ifElse condition body alternative =>
    condition.expressions ++ statementsExpressions body ++ statementsExpressions alternative
  | .do call => call.expressions
  | .return (some value) => value.expressions
  | .return none => []

/-- The expressions in statements. -/
def statementsExpressions : List Statement → List Expr
  | [] => []
  | s :: rest => s.expressions ++ statementsExpressions rest

end

/-- An expression has code, and its code is a stretch of the given code. -/
def Expr.Within (names : Naming) (code : List Command) (e : Expr) : Prop :=
  e.Generable names ∧ e.code names <:+: code

namespace Expr.Within

variable {e : Expr} {code : List Command}

theorem left (h : e.Within names code) (behind : List Command) : e.Within names (code ++ behind) :=
  ⟨h.1, h.2.trans (List.prefix_append code behind).isInfix⟩

theorem right (h : e.Within names code) (before : List Command) : e.Within names (before ++ code) :=
  ⟨h.1, h.2.trans (List.suffix_append before code).isInfix⟩

end Expr.Within

mutual

theorem Term.within_of_mem {e : Expr} :
    ∀ t : Term, t.Generable names → e ∈ t.expressions → e.Within names (t.code names)
  | .literal _, _, he | .var _, _, he => by
    rw [Term.expressions] at he
    cases he
  | .element array subscript, h, he => by
    rw [Term.Generable] at h
    rw [Term.expressions] at he
    rw [Term.code]
    exact ((Expr.within_of_mem subscript h.2 he).right _).left _
  | .call call, h, he => by
    rw [Term.Generable] at h
    rw [Term.expressions] at he
    rw [Term.code]
    exact call.within_of_mem h he
  | .paren inner, h, he => by
    rw [Term.Generable] at h
    rw [Term.expressions] at he
    rw [Term.code]
    exact Expr.within_of_mem inner h he
  | .unary op operand, h, he => by
    rw [Term.Generable] at h
    rw [Term.expressions] at he
    rw [Term.code]
    exact (operand.within_of_mem h he).left _

theorem Expr.within_of_mem {e : Expr} :
    ∀ outer : Expr, outer.Generable names → e ∈ outer.expressions →
      e.Within names (outer.code names)
  | .mk head tail, h, he => by
    rw [Expr.expressions, List.mem_cons, List.mem_append] at he
    rcases he with rfl | he | he
    · exact ⟨h, List.infix_rfl⟩
    · rw [Expr.Generable] at h
      rw [Expr.code]
      exact (head.within_of_mem h.1 he).left _
    · rw [Expr.Generable] at h
      rw [Expr.code]
      exact (within_operandsCode tail h.2 he).right _

theorem within_operandsCode {e : Expr} :
    ∀ operands : List Operand, OperandsGenerable names operands →
    e ∈ operandsExpressions operands → e.Within names (operandsCode names operands)
  | [], _, he => by
    rw [operandsExpressions] at he
    cases he
  | .mk op term :: rest, h, he => by
    rw [OperandsGenerable] at h
    rw [operandsExpressions, List.mem_append] at he
    rw [operandsCode]
    rcases he with he | he
    · exact (term.within_of_mem h.1 he).left _
    · exact ((within_operandsCode rest h.2 he).right [_]).right _

theorem Call.within_of_mem {e : Expr} :
    ∀ call : Call, call.Generable names → e ∈ call.expressions → e.Within names (call.code names)
  | .mk receiver name _ args, h, he => by
    rw [Call.Generable] at h
    rw [Call.expressions] at he
    rw [Call.code]
    exact ((within_argsCode args h.1 he).right _).left _

theorem within_argsCode {e : Expr} : ∀ args : List Expr, ArgsGenerable names args →
    e ∈ argsExpressions args → e.Within names (argsCode names args)
  | [], _, he => by
    rw [argsExpressions] at he
    cases he
  | arg :: rest, h, he => by
    rw [ArgsGenerable] at h
    rw [argsExpressions, List.mem_append] at he
    rw [argsCode]
    rcases he with he | he
    · exact (Expr.within_of_mem arg h.1 he).left _
    · exact (within_argsCode rest h.2 he).right _

end

mutual

theorem Statement.within_of_mem {e : Expr} (n : Nat) :
    ∀ s : Statement, s.Generable names → e ∈ s.expressions → e.Within names (s.code names n)
  | .assign x value, h, he => by
    rw [Statement.Generable] at h
    rw [Statement.expressions] at he
    rw [Statement.code]
    exact (Expr.within_of_mem value h.2 he).left _
  | .assignElement array subscript value, h, he => by
    rw [Statement.Generable] at h
    rw [Statement.expressions, List.mem_append] at he
    rw [Statement.code]
    rcases he with he | he
    · exact ((((Expr.within_of_mem subscript h.2.1 he).right _).left _).left _).left _
    · exact ((Expr.within_of_mem value h.2.2 he).right _).left _
  | .ifThen condition body, h, he => by
    rw [Statement.Generable] at h
    rw [Statement.expressions, List.mem_append] at he
    rw [Statement.code]
    rcases he with he | he
    · exact (((Expr.within_of_mem condition h.1 he).left _).left _).left _
    · exact ((within_statementsCode _ body h.2 he).right _).left _
  | .ifElse condition body alternative, h, he => by
    rw [Statement.Generable] at h
    rw [Statement.expressions, List.mem_append, List.mem_append] at he
    rw [Statement.code]
    rcases he with (he | he) | he
    · exact (((((Expr.within_of_mem condition h.1 he).left _).left _).left _).left _).left _
    · exact ((((within_statementsCode _ body h.2.1 he).right _).left _).left _).left _
    · exact ((within_statementsCode _ alternative h.2.2 he).right _).left _
  | .while condition body, h, he => by
    rw [Statement.Generable] at h
    rw [Statement.expressions, List.mem_append] at he
    rw [Statement.code]
    rcases he with he | he
    · exact ((((Expr.within_of_mem condition h.1 he).right _).left _).left _).left _
    · exact ((within_statementsCode _ body h.2 he).right _).left _
  | .do call, h, he => by
    rw [Statement.Generable] at h
    rw [Statement.expressions] at he
    rw [Statement.code]
    exact (call.within_of_mem h he).left _
  | .return (some value), h, he => by
    rw [Statement.Generable] at h
    rw [Statement.expressions] at he
    rw [Statement.code]
    exact (Expr.within_of_mem value h he).left _
  | .return none, _, he => by
    rw [Statement.expressions] at he
    cases he

/-- The code of each expression in statements is a stretch of their code. -/
theorem within_statementsCode {e : Expr} (n : Nat) :
    ∀ body : List Statement, AllGenerable names body →
    e ∈ statementsExpressions body → e.Within names (statementsCode names n body)
  | [], _, he => by
    rw [statementsExpressions] at he
    cases he
  | s :: rest, h, he => by
    rw [AllGenerable] at h
    rw [statementsExpressions, List.mem_append] at he
    rw [statementsCode]
    rcases he with he | he
    · exact (s.within_of_mem n h.1 he).left _
    · exact (within_statementsCode _ rest h.2 he).right _

end

end

/-! ### Compiled functions -/

theorem fallsThrough_of_straight {code : List Command} (h : code.all straight = true) :
    ∀ c ∈ code, c.fallsThrough := by
  intro c hc
  have hstraight := List.all_eq_true.mp h c hc
  cases c with
  | push | pop | arith | call | label | ifGoto | function => rfl
  | goto | ret => cases hstraight

/-- Each expression in a subroutine has its code somewhere in a block, and wherever a block has such
code, it finds its operands above what is on the stack before and leaves one word there. -/
def ExpressionsRise (names : Naming) (s : Subroutine) (block : List Command) (depth : Nat → Nat) :
    Prop :=
  ∀ e ∈ statementsExpressions s.body, (∃ place, PlacedAt block place (e.code names)) ∧
    ∀ place, PlacedAt block place (e.code names) → Rises depth place (e.code names)

theorem Subroutine.balanced_code {s : Subroutine} {c : Class} {outer : Scope} {n : Nat}
    (hg : AllGenerable (s.naming c outer) s.body) :
    ∃ depth, Balanced (s.code c outer n) depth ∧
      ExpressionsRise (s.naming c outer) s (s.code c outer n) depth := by
  obtain ⟨depth, hb⟩ := s.exists_balanced (n := n) hg
  refine ⟨depth, hb, fun e he => ?_⟩
  obtain ⟨hgenerable, before, behind, hcode⟩ : e.Within (s.naming c outer) (s.code c outer n) :=
    ((within_statementsCode n s.body hg he).right _).right [_]
  refine ⟨⟨before.length, hcode ▸ placedAt_middle before _ behind⟩, fun place hplaced => ?_⟩
  exact hb.rises (fallsThrough_of_straight (e.straight_code _))
    (e.lifts hgenerable).depthBehind hplaced

/-- **Compiled functions are balanced.**  There is one function in the output for each subroutine.
Its commands find their operands, the depth of the stack is the same on all ways that lead to a
command, and it is what it has to be at labels, jumps, returns and the end of the function.  The
code of an expression, wherever it stands, never touches what is below it on the stack and leaves
one word above that. -/
theorem balanced_of_compile {source output : String} (h : compile .vm source = .ok output) :
    ∃ c program, parseUnit source = .ok c ∧ readProgram output = .ok program ∧
      List.Forall₂
        (fun s block => ∃ depth, Balanced block depth ∧
        ExpressionsRise (s.naming c .empty) s block depth)
        c.subroutines (functionBlocks (program.map VM.SourceLine.command)) := by
  obtain ⟨c, _, program, hparse, -, hread, hall⟩ := functionBlocks_of_compile
    (P := fun c s block => ∃ depth, Balanced block depth ∧
    ExpressionsRise (s.naming c .empty) s block depth) h
    fun _ _ _ hrun _ hs _ => Subroutine.balanced_code ((Class.commands_of_compile hrun).1 _ hs)
  exact ⟨c, program, hparse, hread, hall⟩

/-- A class with a branch inside a loop, and with calls. -/
def rollSource : String :=
  "class Dice \x7b function int roll() \x7b while (true) \x7b if (1 < (2 * 3)) \x7b return 6; \x7d "
    ++ "else \x7b do shake(\"ab\", -1); \x7d \x7d return 0; \x7d \x7d"

/-- The only function of the class is balanced. -/
theorem balanced_of_compile_roll : ∃ output program, compile .vm rollSource = .ok output ∧
    readProgram output = .ok program ∧
      ∃ block depth, functionBlocks (program.map VM.SourceLine.command) = [block] ∧
      Balanced block depth := by
  obtain ⟨output, houtput⟩ : ∃ output, compile .vm rollSource = .ok output :=
    exists_output (by decide +kernel)
  have hsubroutines : (parseUnit rollSource).toOption.map (fun c => c.subroutines.length) =
      some 1 := by decide +kernel
  obtain ⟨c, program, hparse, hread, hall⟩ := balanced_of_compile houtput
  rw [hparse] at hsubroutines
  obtain ⟨s, block, -, hblocks, depth, hb, -⟩ :=
    exists_of_forall₂_of_length_eq_one hall (Option.some.inj hsubroutines)
  exact ⟨output, program, houtput, hread, block, depth, hblocks, hb⟩

/-- No run of a function gets stuck: wherever it leads, there is a next step, unless it has come to
a `return` or to the end of the function. -/
def NeverStuck (block : List Command) : Prop :=
  ∀ (env : Environment) (m : Machine) (d : Config), Reaches env block ⟨1, m⟩ d →
    (∃ e, step env block d = some e) ∨ block[d.place]? = some .ret ∨ d.place = block.length

/-- **Compiled functions do not get stuck.** -/
theorem neverStuck_of_compile {source output : String} (h : compile .vm source = .ok output) :
    ∃ program, readProgram output = .ok program ∧
      ∀ block ∈ functionBlocks (program.map VM.SourceLine.command), NeverStuck block := by
  obtain ⟨c, g, hparse, hrun, -, -, hread⟩ := program_of_compile h
  refine ⟨_, hread, fun block hblock env m d hreaches => ?_⟩
  rw [VM.map_numberedFrom, functionBlocks_part] at hblock
  obtain ⟨s, hs, n, rfl⟩ := exists_of_mem_subroutineCodes hblock
  obtain ⟨depth, hb⟩ := s.exists_balanced (n := n) ((Class.commands_of_compile hrun).1 s hs)
  have hsound := Subroutine.sound_code (n := n) (spelled_of_parseUnit hparse) hs
    isIdentifier_type_of_lookup_empty
  refine hb.not_stuck hreaches ?_ (fun cmd hcmd => (hsound cmd hcmd).translatable)
    s.jumpTargets_code_subset
  rintro cmd hcmd name locals rfl
  exact Bool.false_ne_true (List.all_eq_true.mp s.inner_body _ hcmd)

end JackToolchain.Jack
