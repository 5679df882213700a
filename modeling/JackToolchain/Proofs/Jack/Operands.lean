import JackToolchain.Proofs.Jack.Emitted
import JackToolchain.Proofs.Jack.Generated

/-!
# Operands in range

A command of the virtual machine has a word for its operand, and an instruction loads a constant of
one bit less.  So there are classes whose commands have operands that cannot be loaded.  Which ones
these are can be seen in the tree (`Class.Fits`): integer constants are always in range, while
string constants, calls, variables and objects may be too large.
-/

namespace JackToolchain.Jack

open Hack (maxConstant)
open VM (Command)

/-! ### What fits -/

/-- The index of the variable of a name can be loaded, if it has to be.  The cells of static
variables have symbols. -/
def Naming.IndexFits (names : Naming) (x : Ident) : Prop :=
  ∀ v ∈ names.lookup x.name, v.kind ≠ .static → v.index.toNat ≤ maxConstant

/-- The length and the units of a string constant can be loaded. -/
def Literal.Fits : Literal → Prop
  | .string contents _ =>
    (Text.units contents).length ≤ maxConstant ∧ ∀ unit ∈ Text.units contents,
      unit.toNat ≤ maxConstant
  | .int .. | .true | .false | .null | .this => True

mutual

/-- The operands in the code of a term can be loaded. -/
def Term.Fits (names : Naming) : Term → Prop
  | .literal value => value.Fits
  | .var x => names.IndexFits x
  | .element array subscript => names.IndexFits array ∧ subscript.Fits names
  | .call call => call.Fits names
  | .paren inner => inner.Fits names
  | .unary _ operand => operand.Fits names

/-- The operands in the code of an expression can be loaded. -/
def Expr.Fits (names : Naming) : Expr → Prop
  | .mk head tail => head.Fits names ∧ OperandsFit names tail

/-- The operands in the code of operators and terms can be loaded. -/
def OperandsFit (names : Naming) : List Operand → Prop
  | [] => True
  | .mk _ term :: rest => term.Fits names ∧ OperandsFit names rest

/-- The operands in the code of a call can be loaded.  The called function goes back over the
arguments, the object among them, and over five words more. -/
def Call.Fits (names : Naming) : Call → Prop
  | .mk receiver _ _ args =>
    (∀ x ∈ receiver, names.IndexFits x) ∧ ArgsFit names args ∧
      5 + (names.receiverCount receiver + args.length) ≤ maxConstant

/-- The operands in the code of arguments can be loaded. -/
def ArgsFit (names : Naming) : List Expr → Prop
  | [] => True
  | arg :: rest => arg.Fits names ∧ ArgsFit names rest

end

mutual

/-- The operands in the code of a statement can be loaded. -/
def Statement.Fits (names : Naming) : Statement → Prop
  | .assign x value => names.IndexFits x ∧ value.Fits names
  | .assignElement array subscript value =>
    names.IndexFits array ∧ subscript.Fits names ∧ value.Fits names
  | .ifThen condition body | .while condition body => condition.Fits names ∧ AllFit names body
  | .ifElse condition body alternative =>
    condition.Fits names ∧ AllFit names body ∧ AllFit names alternative
  | .do call => call.Fits names
  | .return (some value) => value.Fits names
  | .return none => True

/-- The operands in the code of statements can be loaded. -/
def AllFit (names : Naming) : List Statement → Prop
  | [] => True
  | s :: rest => s.Fits names ∧ AllFit names rest

end

/-- The operands in the code of a class can be loaded.  A constructor loads the size of an
object. -/
def Class.Fits (c : Class) (outer : Scope) : Prop :=
  ∀ s ∈ c.subroutines, (s.kind = .constructor → c.fieldCount outer ≤ maxConstant) ∧
    AllFit (s.naming c outer) s.body

/-! ### Expressions -/

section
variable {names : Naming} {x : Ident}

theorem forall_mem_pair {P : Command → Prop} {a b : Command} : (∀ c ∈ [a, b], P c) ↔ P a ∧ P b := by
  simp

theorem loadable_push {w : Word} : (Command.push .constant w).Loadable ↔ w.toNat ≤ maxConstant :=
  List.forall_mem_singleton

theorem loadable_call {name : String} {w : Word} :
    (Command.call name w).Loadable ↔ 5 + w.toNat ≤ maxConstant :=
  List.forall_mem_singleton

/-- A command without operands can be loaded. -/
theorem loadable_of_constants_eq_nil {c : Command} (h : c.constants = []) : c.Loadable := by
  unfold Command.Loadable
  rw [h]
  exact List.forall_mem_nil _

theorem toNat_ofNat_of_le {n : Nat} (h : n ≤ Word.maxNat) : (BitVec.ofNat 16 n).toNat = n := by
  rw [BitVec.toNat_ofNat]
  exact Nat.mod_eq_of_lt (Nat.lt_succ_of_le h)

theorem VarKind.loadable (kind : VarKind) (index : Word) :
    ((Command.push kind.segment index).Loadable ↔ (kind ≠ .static → index.toNat ≤ maxConstant)) ∧
      ((Command.pop kind.segment index).Loadable ↔
        (kind ≠ .static → index.toNat ≤ maxConstant)) := by
  cases kind <;> simp [Command.Loadable, Command.constants, VarKind.segment, VM.Segment.loadsIndex]

theorem Naming.loadable_pushCode : (∀ c ∈ names.pushCode x, c.Loadable) ↔ names.IndexFits x := by
  unfold Naming.pushCode Naming.IndexFits
  cases names.lookup x.name with
  | none => simp
  | some v => simpa using (VarKind.loadable v.kind v.index).1

theorem Naming.loadable_popCode : (∀ c ∈ names.popCode x, c.Loadable) ↔ names.IndexFits x := by
  unfold Naming.popCode Naming.IndexFits
  cases names.lookup x.name with
  | none => simp
  | some v => simpa using (VarKind.loadable v.kind v.index).2

theorem Naming.loadable_receiverCode {receiver : Option Ident} :
    (∀ c ∈ names.receiverCode receiver, c.Loadable) ↔ ∀ x ∈ receiver, names.IndexFits x := by
  cases receiver with
  | none => exact ⟨fun _ => nofun, fun _ => List.forall_mem_singleton.mpr (by decide)⟩
  | some x => simpa [Naming.receiverCode] using names.loadable_pushCode

theorem loadable_appendCode {units : List Word} :
    (∀ c ∈ appendCode units, c.Loadable) ↔ ∀ unit ∈ units, unit.toNat ≤ maxConstant := by
  have hcall : (Command.call "String.appendChar" 2).Loadable := by decide
  unfold appendCode
  rw [List.forall_mem_flatMap]
  refine forall₂_congr fun unit _ => ?_
  rw [forall_mem_pair, loadable_push]
  exact and_iff_left hcall

theorem Literal.loadable_code {value : Literal} (hs : value.Spelled)
    (hg : (Term.literal value).Generable names) : (∀ c ∈ value.code, c.Loadable) ↔ value.Fits := by
  cases value with
  | int n digits =>
    refine iff_of_true (List.forall_mem_singleton.mpr (loadable_push.mpr ?_)) trivial
    rw [BitVec.toNat_ofNat]
    exact Nat.le_trans (Nat.mod_le _ _) hs
  | string contents span =>
    have hnew : (Command.call "String.new" 1).Loadable := by decide
    rw [Term.Generable] at hg
    show (∀ c ∈ [_, _] ++ appendCode _, c.Loadable) ↔ _ ∧ _
    rw [List.forall_mem_append, forall_mem_pair, loadable_appendCode, loadable_push,
      toNat_ofNat_of_le hg]
    exact and_congr_left' (and_iff_left hnew)
  | true => exact iff_of_true (forall_mem_pair.mpr ⟨by decide, by decide⟩) trivial
  | false | null | this => exact iff_of_true (List.forall_mem_singleton.mpr (by decide)) trivial

theorem loadable_unaryCommand (op : UnaryOp) : (Generation.unaryCommand op).Loadable := by
  cases op <;> decide

theorem loadable_binaryCommand (op : BinaryOp) : (Generation.binaryCommand op).Loadable := by
  cases op <;> decide

end

mutual

theorem Term.loadable_code {names : Naming} :
    ∀ t : Term, t.Spelled → t.Generable names → ((∀ c ∈ t.code names, c.Loadable) ↔ t.Fits names)
  | .literal value, hs, hg => by
    rw [Term.Spelled] at hs
    rw [Term.code, Term.Fits]
    exact value.loadable_code hs hg
  | .var x, _, _ => by
    rw [Term.code, Term.Fits]
    exact names.loadable_pushCode
  | .element array subscript, hs, hg => by
    rw [Term.Spelled] at hs
    rw [Term.Generable] at hg
    have hlast : ∀ c ∈ [Command.arith .add, .pop .pointer 1, .push .that 0], c.Loadable := by decide
    rw [Term.code, Term.Fits, List.forall_mem_append, List.forall_mem_append,
      names.loadable_pushCode, subscript.loadable_code hs.2 hg.2]
    exact and_iff_left hlast
  | .call call, hs, hg => by
    rw [Term.Spelled] at hs
    rw [Term.Generable] at hg
    rw [Term.code, Term.Fits]
    exact call.loadable_code hs hg
  | .paren inner, hs, hg => by
    rw [Term.Spelled] at hs
    rw [Term.Generable] at hg
    rw [Term.code, Term.Fits]
    exact inner.loadable_code hs hg
  | .unary op operand, hs, hg => by
    rw [Term.Spelled] at hs
    rw [Term.Generable] at hg
    rw [Term.code, Term.Fits, List.forall_mem_append, operand.loadable_code hs hg]
    exact and_iff_left (List.forall_mem_singleton.mpr (loadable_unaryCommand op))

theorem Expr.loadable_code {names : Naming} :
    ∀ e : Expr, e.Spelled → e.Generable names → ((∀ c ∈ e.code names, c.Loadable) ↔ e.Fits names)
  | .mk head tail, hs, hg => by
    rw [Expr.Spelled] at hs
    rw [Expr.Generable] at hg
    rw [Expr.code, Expr.Fits, List.forall_mem_append, head.loadable_code hs.1 hg.1,
      loadable_operandsCode tail hs.2 hg.2]

theorem loadable_operandsCode {names : Naming} :
    ∀ operands : List Operand, OperandsSpelled operands → OperandsGenerable names operands →
      ((∀ c ∈ operandsCode names operands, c.Loadable) ↔ OperandsFit names operands)
  | [], _, _ => by
    rw [operandsCode, OperandsFit]
    exact iff_of_true (List.forall_mem_nil _) trivial
  | .mk op term :: rest, hs, hg => by
    rw [OperandsSpelled] at hs
    rw [OperandsGenerable] at hg
    rw [operandsCode, OperandsFit, List.forall_mem_append, List.forall_mem_cons,
      term.loadable_code hs.1 hg.1, loadable_operandsCode rest hs.2 hg.2]
    exact and_congr_right' (and_iff_right (loadable_binaryCommand op))

theorem Call.loadable_code {names : Naming} :
    ∀ call : Call, call.Spelled → call.Generable names →
      ((∀ c ∈ call.code names, c.Loadable) ↔ call.Fits names)
  | .mk receiver name paren args, hs, hg => by
    rw [Call.Spelled] at hs
    rw [Call.Generable] at hg
    rw [Call.code, Call.Fits, List.forall_mem_append, List.forall_mem_append,
      List.forall_mem_singleton, loadable_call, toNat_ofNat_of_le hg.2, names.loadable_receiverCode,
      loadable_argsCode args hs.2.2 hg.1, and_assoc]

theorem loadable_argsCode {names : Naming} :
    ∀ args : List Expr, ArgsSpelled args → ArgsGenerable names args →
      ((∀ c ∈ argsCode names args, c.Loadable) ↔ ArgsFit names args)
  | [], _, _ => by
    rw [argsCode, ArgsFit]
    exact iff_of_true (List.forall_mem_nil _) trivial
  | arg :: rest, hs, hg => by
    rw [ArgsSpelled] at hs
    rw [ArgsGenerable] at hg
    rw [argsCode, ArgsFit, List.forall_mem_append, arg.loadable_code hs.1 hg.1,
      loadable_argsCode rest hs.2 hg.2]

end

/-! ### Statements -/

theorem loadable_label (name : String) : ∀ c ∈ [Command.label name], c.Loadable :=
  List.forall_mem_singleton.mpr (loadable_of_constants_eq_nil rfl)

theorem loadable_test (name : String) : ∀ c ∈ [Command.arith .not, .ifGoto name], c.Loadable :=
  forall_mem_pair.mpr ⟨by decide, loadable_of_constants_eq_nil rfl⟩

theorem loadable_jump (target name : String) :
    ∀ c ∈ [Command.goto target, .label name], c.Loadable :=
  forall_mem_pair.mpr ⟨loadable_of_constants_eq_nil rfl, loadable_of_constants_eq_nil rfl⟩

mutual

theorem Statement.loadable_code {names : Naming} (n : Nat) :
    ∀ s : Statement, s.Spelled → s.Generable names →
      ((∀ c ∈ s.code names n, c.Loadable) ↔ s.Fits names)
  | .assign x value, hs, hg => by
    rw [Statement.Spelled] at hs
    rw [Statement.Generable] at hg
    rw [Statement.code, Statement.Fits, List.forall_mem_append, value.loadable_code hs.2 hg.2,
      names.loadable_popCode, and_comm]
  | .assignElement array subscript value, hs, hg => by
    rw [Statement.Spelled] at hs
    rw [Statement.Generable] at hg
    have hadd : ∀ c ∈ [Command.arith .add], c.Loadable := by decide
    have hlast : ∀ c ∈ [Command.pop .temp 0, .pop .pointer 1, .push .temp 0, .pop .that 0],
        c.Loadable := by decide
    rw [Statement.code, Statement.Fits]
    simp only [List.forall_mem_append]
    rw [and_iff_left hlast, and_iff_left hadd, names.loadable_pushCode,
      subscript.loadable_code hs.2.1 hg.2.1, value.loadable_code hs.2.2 hg.2.2, and_assoc]
  | .ifThen condition body, hs, hg => by
    rw [Statement.Spelled] at hs
    rw [Statement.Generable] at hg
    have htest := loadable_test (ifEnd n)
    have hlast := loadable_label (ifEnd n)
    rw [Statement.code, Statement.Fits]
    simp only [List.forall_mem_append]
    rw [and_iff_left hlast, and_iff_left htest, condition.loadable_code hs.1 hg.1,
      loadable_statementsCode _ body hs.2 hg.2]
  | .ifElse condition body alternative, hs, hg => by
    rw [Statement.Spelled] at hs
    rw [Statement.Generable] at hg
    have htest := loadable_test (ifElse n)
    have hjump : ∀ c ∈ [Command.goto (ifEnd n), .label (ifElse n)], c.Loadable := loadable_jump _ _
    have hlast := loadable_label (ifEnd n)
    rw [Statement.code, Statement.Fits]
    simp only [List.forall_mem_append]
    rw [and_iff_left hlast, and_iff_left hjump, and_iff_left htest,
      condition.loadable_code hs.1 hg.1, loadable_statementsCode _ body hs.2.1 hg.2.1,
      loadable_statementsCode _ alternative hs.2.2 hg.2.2, and_assoc]
  | .while condition body, hs, hg => by
    rw [Statement.Spelled] at hs
    rw [Statement.Generable] at hg
    have hfirst := loadable_label (whileStart n)
    have htest := loadable_test (whileEnd n)
    have hjump : ∀ c ∈ [Command.goto (whileStart n), .label (whileEnd n)], c.Loadable :=
      loadable_jump _ _
    rw [Statement.code, Statement.Fits]
    simp only [List.forall_mem_append]
    rw [and_iff_left hjump, and_iff_left htest, and_iff_right hfirst,
      condition.loadable_code hs.1 hg.1, loadable_statementsCode _ body hs.2 hg.2]
  | .do call, hs, hg => by
    rw [Statement.Spelled] at hs
    rw [Statement.Generable] at hg
    rw [Statement.code, Statement.Fits, List.forall_mem_append, call.loadable_code hs hg]
    exact and_iff_left (List.forall_mem_singleton.mpr (by decide))
  | .return (some value), hs, hg => by
    rw [Statement.Spelled] at hs
    rw [Statement.Generable] at hg
    rw [Statement.code, Statement.Fits, List.forall_mem_append, value.loadable_code hs hg]
    exact and_iff_left (List.forall_mem_singleton.mpr (by decide))
  | .return none, _, _ => by
    rw [Statement.code, Statement.Fits]
    exact iff_of_true (forall_mem_pair.mpr ⟨by decide, by decide⟩) trivial

theorem loadable_statementsCode {names : Naming} (n : Nat) :
    ∀ body : List Statement, AllSpelled body → AllGenerable names body →
      ((∀ c ∈ statementsCode names n body, c.Loadable) ↔ AllFit names body)
  | [], _, _ => by
    rw [statementsCode, AllFit]
    exact iff_of_true (List.forall_mem_nil _) trivial
  | s :: rest, hs, hg => by
    rw [AllSpelled] at hs
    rw [AllGenerable] at hg
    rw [statementsCode, AllFit, List.forall_mem_append, s.loadable_code n hs.1 hg.1,
      loadable_statementsCode _ rest hs.2 hg.2]

end

/-! ### Subroutines -/

section
variable {c : Class} {outer : Scope} {n : Nat}

theorem SubroutineKind.loadable_setupCode (kind : SubroutineKind) {fields : Nat}
    (h : fields ≤ Word.maxNat) :
    (∀ cmd ∈ kind.setupCode fields, cmd.Loadable) ↔
      (kind = .constructor → fields ≤ maxConstant) := by
  cases kind with
  | function => exact iff_of_true (List.forall_mem_nil _) nofun
  | method => exact iff_of_true (forall_mem_pair.mpr ⟨by decide, by decide⟩) nofun
  | constructor =>
    have hlast : ∀ cmd ∈ [Command.call "Memory.alloc" 1, .pop .pointer 0], cmd.Loadable := by decide
    rw [SubroutineKind.setupCode, List.forall_mem_cons, loadable_push, toNat_ofNat_of_le h,
      and_iff_left hlast]
    exact ⟨fun hfields _ => hfields, fun hfields => hfields rfl⟩

theorem Subroutine.loadable_code {s : Subroutine} (hfields : c.fieldCount outer ≤ Word.maxNat)
    (hs : s.Spelled) (hg : AllGenerable (s.naming c outer) s.body) :
    (∀ cmd ∈ s.code c outer n, cmd.Loadable) ↔
      (s.kind = .constructor → c.fieldCount outer ≤ maxConstant) ∧
      AllFit (s.naming c outer) s.body := by
  rw [Subroutine.code, List.forall_mem_cons, List.forall_mem_append,
    s.kind.loadable_setupCode hfields, loadable_statementsCode n s.body hs.body hg]
  exact and_iff_right (loadable_of_constants_eq_nil rfl)

/-- **The operands in the code of a class can be loaded if and only if those in the tree fit.** -/
theorem loadable_subroutineCodes (hfields : c.fieldCount outer ≤ Word.maxNat)
    {subroutines : List Subroutine} (hs : ∀ s ∈ subroutines, s.Spelled)
    (hg : ∀ s ∈ subroutines, AllGenerable (s.naming c outer) s.body) :
    (∀ cmd ∈ (subroutineCodes c outer n subroutines).flatten, cmd.Loadable) ↔
      ∀ s ∈ subroutines,
        (s.kind = .constructor → c.fieldCount outer ≤ maxConstant) ∧
        AllFit (s.naming c outer) s.body := by
  induction subroutines generalizing n with
  | nil => exact iff_of_true (List.forall_mem_nil _) (List.forall_mem_nil _)
  | cons s rest ih =>
    obtain ⟨hs, hsrest⟩ := List.forall_mem_cons.mp hs
    obtain ⟨hg, hgrest⟩ := List.forall_mem_cons.mp hg
    rw [subroutineCodes, List.flatten_cons, List.forall_mem_append, List.forall_mem_cons,
      Subroutine.loadable_code hfields hs hg, ih hsrest hgrest]

end

end JackToolchain.Jack
