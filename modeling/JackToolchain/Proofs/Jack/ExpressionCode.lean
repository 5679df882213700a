import JackToolchain.Proofs.Jack.Code
import JackToolchain.Proofs.Jack.Evaluation
import JackToolchain.Proofs.Placement

/-!
# The code of expressions computes their values

What a machine shows (`View`) is its stack and its store; the base of `that` and the cells of `temp`
are used inside a stretch of code only and are hidden.  A stretch without jumps *computes* one view
from another if it leads from the one to the other wherever it is placed (`Computes`).  Each short
stretch that generation writes computes what the evaluation says, and by induction along the tree so
does the code of a term, an expression and a call (`Term.computes`, `Expr.computes`,
`Call.computes`).
-/

namespace JackToolchain.Jack

open VM (Command Environment Machine Reaches Store)

/-! ### Views -/

/-- What a machine shows. -/
structure View where
  stack : List Word
  store : Store

/-- What a machine shows. -/
def view (m : Machine) : View := ⟨m.stack, m.toStore⟩

/-- From every machine that shows the one view, a machine that shows the other is reached. -/
def Leads (env : Environment) (code : List Command) (place : Nat) (v : View) (place' : Nat)
    (v' : View) : Prop :=
  ∀ m, view m = v → ∃ m', Reaches env code ⟨place, m⟩ ⟨place', m'⟩ ∧ view m' = v'

/-- Wherever a stretch of code is placed, it leads from the one view to the other. -/
def Computes (env : Environment) (stretch : List Command) (v v' : View) : Prop :=
  ∀ code place, PlacedAt code place stretch → Leads env code place v (place + stretch.length) v'

section
variable {env : Environment} {code : List Command} {i j k : Nat} {u v w : View}

theorem Leads.refl : Leads env code i v i v := fun m hm => ⟨m, .refl _, hm⟩

theorem Leads.trans (h : Leads env code i u j v) (h' : Leads env code j v k w) :
    Leads env code i u k w := by
  intro m hm
  obtain ⟨m₁, hreach, hm₁⟩ := h m hm
  obtain ⟨m₂, hreach', hm₂⟩ := h' m₁ hm₁
  exact ⟨m₂, hreach.trans hreach', hm₂⟩

theorem Computes.nil : Computes env [] v v := fun _ _ _ => .refl

theorem Computes.append {xs ys : List Command} (h : Computes env xs u v)
    (h' : Computes env ys v w) : Computes env (xs ++ ys) u w := by
  intro code place hplaced
  obtain ⟨hx, hy⟩ := placedAt_append.mp hplaced
  rw [List.length_append, ← Nat.add_assoc]
  exact (h code place hx).trans (h' code _ hy)

/-- A command that every machine with the view can execute. -/
theorem Computes.single {c : Command}
    (h : ∀ code place m, view m = u →
      ∃ m', VM.execute env code place m c = some ⟨place + 1, m'⟩ ∧ view m' = v) :
    Computes env [c] u v := by
  intro code place hplaced m hm
  obtain ⟨m', hexec, hm'⟩ := h code place m hm
  exact ⟨m', .single (placedAt_cons.mp hplaced).1 hexec, hm'⟩

end

/-! ### Short stretches -/

section
variable {env : Environment} {s : List Word} {σ : Store}

theorem computes_pushConstant (x : Word) : Computes env [.push .constant x] ⟨s, σ⟩ ⟨x :: s, σ⟩ := by
  refine .single fun code place m hm => ?_
  cases hm
  exact ⟨_, rfl, rfl⟩

theorem computes_pushThis : Computes env [.push .pointer 0] ⟨s, σ⟩ ⟨σ.thisBase :: s, σ⟩ := by
  refine .single fun code place m hm => ?_
  cases hm
  exact ⟨_, rfl, rfl⟩

theorem computes_pushVariable (v : Variable) :
    Computes env [.push v.kind.segment v.index] ⟨s, σ⟩ ⟨v.value σ :: s, σ⟩ := by
  refine .single fun code place m hm => ?_
  cases hm
  obtain ⟨name, type, kind, index⟩ := v
  cases kind <;> exact ⟨_, rfl, rfl⟩

theorem computes_popVariable (v : Variable) (x : Word) :
    Computes env [.pop v.kind.segment v.index] ⟨x :: s, σ⟩ ⟨s, v.assign x σ⟩ := by
  refine .single fun code place m hm => ?_
  obtain ⟨σ', stack, thatBase, temp⟩ := m
  cases hm
  obtain ⟨name, type, kind, index⟩ := v
  cases kind <;> exact ⟨_, rfl, rfl⟩

theorem computes_arith {op : VM.ArithOp} {s' : List Word} (h : op.apply s = some s') :
    Computes env [.arith op] ⟨s, σ⟩ ⟨s', σ⟩ := by
  refine .single fun code place m hm => ?_
  cases hm
  exact ⟨_, by rw [VM.execute, h]; rfl, rfl⟩

/-- A call finds its arguments on the stack, the last one on top. -/
theorem computes_call {n : Word} {values : List Word} (name : String)
    (h : n.toNat = values.length) : Computes env [.call name n] ⟨values.reverse ++ s, σ⟩
      ⟨(callLibrary env name values σ).1 :: s, (callLibrary env name values σ).2⟩ := by
  refine .single fun code place m hm => ?_
  obtain ⟨σ', stack, thatBase, temp⟩ := m
  cases hm
  have hlength : n.toNat = values.reverse.length := by rw [h, List.length_reverse]
  refine ⟨Machine.call ⟨σ', values.reverse ++ s, thatBase, temp⟩ env name n.toNat, ?_, ?_⟩
  · have henough : n.toNat ≤ (values.reverse ++ s).length := by
      rw [hlength, List.length_append]
      exact Nat.le_add_right _ _
    exact if_pos henough
  · unfold view Machine.call callLibrary
    dsimp only
    rw [hlength, List.take_left, List.drop_left, List.reverse_reverse]

/-- The result of a call that nobody uses. -/
theorem computes_discard (x : Word) : Computes env [.pop .temp 0] ⟨x :: s, σ⟩ ⟨s, σ⟩ := by
  refine .single fun code place m hm => ?_
  obtain ⟨σ', stack, thatBase, temp⟩ := m
  cases hm
  exact ⟨_, rfl, rfl⟩

/-- An element is read through the segment `that`. -/
theorem computes_readElement (base i : Word) :
    Computes env [.arith .add, .pop .pointer 1, .push .that 0] ⟨i :: base :: s, σ⟩
      ⟨σ.memory (base + i) :: s, σ⟩ := by
  intro code place hplaced m hm
  obtain ⟨σ', stack, thatBase, temp⟩ := m
  cases hm
  obtain ⟨hadd, hrest⟩ := placedAt_cons.mp hplaced
  obtain ⟨hpop, hrest⟩ := placedAt_cons.mp hrest
  obtain ⟨hpush, -⟩ := placedAt_cons.mp hrest
  refine ⟨_, (Reaches.single hadd rfl).trans ((Reaches.single hpop rfl).trans (.single hpush rfl)),
    ?_⟩
  show View.mk (σ'.memory (base + i + 0#16) :: s) σ' = _
  rw [BitVec.add_zero]

/-- An element is written through the segment `that`, while the value waits in `temp`. -/
theorem computes_writeElement (address x : Word) :
    Computes env [.pop .temp 0, .pop .pointer 1, .push .temp 0, .pop .that 0] ⟨x :: address :: s, σ⟩
      ⟨s, storeElement address x σ⟩ := by
  intro code place hplaced m hm
  obtain ⟨σ', stack, thatBase, temp⟩ := m
  cases hm
  obtain ⟨hvalue, hrest⟩ := placedAt_cons.mp hplaced
  obtain ⟨hbase, hrest⟩ := placedAt_cons.mp hrest
  obtain ⟨hback, hrest⟩ := placedAt_cons.mp hrest
  obtain ⟨hstore, -⟩ := placedAt_cons.mp hrest
  refine ⟨_, (Reaches.single hvalue rfl).trans ((Reaches.single hbase rfl).trans
    ((Reaches.single hback rfl).trans (.single hstore rfl))), ?_⟩
  show View.mk s (storeElement (address + 0#16) (VM.update temp 0 x 0) σ') = _
  rw [BitVec.add_zero]
  rfl

theorem computes_append (object : Word) (units : List Word) :
    Computes env (appendCode units) ⟨object :: s, σ⟩
      ⟨(appendEach env object units σ).1 :: s, (appendEach env object units σ).2⟩ := by
  induction units generalizing object σ with
  | nil => exact .nil
  | cons unit rest ih =>
    have hcall : Computes env _ ⟨unit :: object :: s, σ⟩ _ :=
      computes_call "String.appendChar" (show (2 : Word).toNat = [object, unit].length from rfl)
    exact ((computes_pushConstant unit).append hcall).append (ih _)

theorem Literal.computes (value : Literal) :
    Computes env value.code ⟨s, σ⟩ ⟨(value.eval env σ).1 :: s, (value.eval env σ).2⟩ := by
  cases value with
  | int value => exact computes_pushConstant _
  | false => exact computes_pushConstant 0
  | null => exact computes_pushConstant 0
  | this => exact computes_pushThis
  | true =>
    have hnot : VM.ArithOp.apply .not (0 :: s) = some (-1 :: s) := rfl
    exact (computes_pushConstant 0).append (computes_arith hnot)
  | string contents =>
    have hnew : Computes env _ ⟨_ :: s, σ⟩ _ := computes_call "String.new"
      (show (1 : Word).toNat = [BitVec.ofNat 16 (Text.units contents).length].length from rfl)
    exact ((computes_pushConstant _).append hnew).append (computes_append _ _)

theorem BinaryOp.computes (op : BinaryOp) (x y : Word) :
    Computes env [Generation.binaryCommand op] ⟨y :: x :: s, σ⟩
      ⟨(op.eval env x y σ).1 :: s, (op.eval env x y σ).2⟩ := by
  cases op with
  | mul | div => exact computes_call _ (show (2 : Word).toNat = [x, y].length from rfl)
  | add | sub | and | or | lt | gt | eq => exact computes_arith rfl

theorem UnaryOp.computes (op : UnaryOp) (x : Word) :
    Computes env [Generation.unaryCommand op] ⟨x :: s, σ⟩ ⟨op.eval x :: s, σ⟩ := by
  cases op <;> exact computes_arith rfl

/-- The object of a call is pushed, if there is one. -/
theorem Naming.computes_receiver (names : Naming) (env : Environment) (s : List Word) (σ : Store)
    (receiver : Option Ident) (name : Ident) :
    names.target receiver name = (names.callee receiver name σ).1 ∧
      names.receiverCount receiver = (names.callee receiver name σ).2.length ∧
      Computes env (names.receiverCode receiver) ⟨s,
        σ⟩ ⟨(names.callee receiver name σ).2.reverse ++ s, σ⟩ := by
  cases receiver with
  | none => exact ⟨rfl, rfl, computes_pushThis⟩
  | some x =>
    simp only [Naming.target, Naming.receiverCount, Naming.receiverCode, Naming.pushCode,
      Naming.callee]
    cases names.lookup x.name with
    | none => exact ⟨rfl, rfl, .nil⟩
    | some v => exact ⟨rfl, rfl, computes_pushVariable v⟩

end

/-! ### Trees -/

section
variable {env : Environment} {names : Naming}

theorem length_of_evalArgs {args : List Expr} {xs : List Word} {σ σ' : Store}
    (h : evalArgs env names args σ = some (xs, σ')) : xs.length = args.length := by
  induction args generalizing xs σ σ' with
  | nil =>
    rw [evalArgs] at h
    cases h
    rfl
  | cons arg rest ih =>
    rw [evalArgs] at h
    obtain ⟨⟨x, σ₁⟩, -, h⟩ := Option.bind_eq_some_iff.mp h
    obtain ⟨⟨ys, σ₂⟩, hrest, h⟩ := Option.bind_eq_some_iff.mp h
    cases h
    exact congrArg (· + 1) (ih hrest)

mutual

/-- **The code of a term computes its value.** -/
theorem Term.computes {s : List Word} {x : Word} {σ σ' : Store} :
    ∀ t : Term, t.Generable names → t.eval env names σ = some (x, σ') →
      Computes env (t.code names) ⟨s, σ⟩ ⟨x :: s, σ'⟩
  | .literal value, _, h => by
    rw [Term.eval] at h
    rw [Term.code]
    have hvalue : Computes env value.code ⟨s, σ⟩ _ := value.computes
    rw [Option.some.inj h] at hvalue
    exact hvalue
  | .var y, _, h => by
    rw [Term.eval] at h
    rw [Term.code]
    obtain ⟨v, hv, h⟩ := Option.bind_eq_some_iff.mp h
    cases h
    unfold Naming.pushCode
    rw [hv]
    exact computes_pushVariable v
  | .element array subscript, hg, h => by
    rw [Term.eval] at h
    rw [Term.Generable] at hg
    rw [Term.code]
    obtain ⟨v, hv, h⟩ := Option.bind_eq_some_iff.mp h
    obtain ⟨⟨i, σ₁⟩, hi, h⟩ := Option.bind_eq_some_iff.mp h
    cases h
    unfold Naming.pushCode
    rw [hv]
    exact ((computes_pushVariable v).append (subscript.computes hg.2 hi)).append
      (computes_readElement _ i)
  | .call call, hg, h => by
    rw [Term.eval] at h
    rw [Term.Generable] at hg
    rw [Term.code]
    exact call.computes hg h
  | .paren inner, hg, h => by
    rw [Term.eval] at h
    rw [Term.Generable] at hg
    rw [Term.code]
    exact inner.computes hg h
  | .unary op operand, hg, h => by
    rw [Term.eval] at h
    rw [Term.Generable] at hg
    rw [Term.code]
    obtain ⟨⟨y, σ₁⟩, hy, h⟩ := Option.bind_eq_some_iff.mp h
    cases h
    exact (operand.computes hg hy).append (op.computes y)

/-- **The code of an expression computes its value.** -/
theorem Expr.computes {s : List Word} {x : Word} {σ σ' : Store} :
    ∀ e : Expr, e.Generable names → e.eval env names σ = some (x, σ') →
      Computes env (e.code names) ⟨s, σ⟩ ⟨x :: s, σ'⟩
  | .mk head tail, hg, h => by
    rw [Expr.eval] at h
    rw [Expr.Generable] at hg
    rw [Expr.code]
    obtain ⟨⟨y, σ₁⟩, hy, h⟩ := Option.bind_eq_some_iff.mp h
    exact (head.computes hg.1 hy).append (computes_operands tail hg.2 h)

theorem computes_operands {s : List Word} {x z : Word} {σ σ' : Store} :
    ∀ operands : List Operand, OperandsGenerable names operands →
      evalOperands env names x operands σ = some (z, σ') →
      Computes env (operandsCode names operands) ⟨x :: s, σ⟩ ⟨z :: s, σ'⟩
  | [], _, h => by
    rw [evalOperands] at h
    rw [operandsCode]
    cases h
    exact .nil
  | .mk op term :: rest, hg, h => by
    rw [evalOperands] at h
    rw [OperandsGenerable] at hg
    rw [operandsCode]
    obtain ⟨⟨y, σ₁⟩, hy, h⟩ := Option.bind_eq_some_iff.mp h
    exact (term.computes hg.1 hy).append ((op.computes x y).append (computes_operands rest hg.2 h))

theorem Call.computes {s : List Word} {x : Word} {σ σ' : Store} :
    ∀ call : Call, call.Generable names → call.eval env names σ = some (x, σ') →
      Computes env (call.code names) ⟨s, σ⟩ ⟨x :: s, σ'⟩
  | .mk receiver name _ args, hg, h => by
    rw [Call.eval] at h
    rw [Call.Generable] at hg
    rw [Call.code]
    obtain ⟨⟨values, σ₁⟩, hvalues, h⟩ := Option.bind_eq_some_iff.mp h
    replace h : callLibrary env (names.callee receiver name σ).1
        ((names.callee receiver name σ).2 ++ values) σ₁ = (x, σ') := Option.some.inj h
    obtain ⟨htarget, hcount, hobject⟩ := names.computes_receiver env s σ receiver name
    have hlength : (BitVec.ofNat 16 (names.receiverCount receiver + args.length)).toNat
        = ((names.callee receiver name σ).2 ++ values).length := by
      have hlimit := hg.2
      unfold Word.maxNat at hlimit
      rw [BitVec.toNat_ofNat, Nat.mod_eq_of_lt (by omega), List.length_append, hcount,
        length_of_evalArgs hvalues]
    have hcall : Computes env _ ⟨_ ++ s, σ₁⟩ _ :=
      computes_call (names.callee receiver name σ).1 hlength
    rw [List.reverse_append, List.append_assoc, h, ← htarget] at hcall
    exact (hobject.append (computes_args args hg.1 hvalues)).append hcall

theorem computes_args {s xs : List Word} {σ σ' : Store} :
    ∀ args : List Expr, ArgsGenerable names args → evalArgs env names args σ = some (xs, σ') →
      Computes env (argsCode names args) ⟨s, σ⟩ ⟨xs.reverse ++ s, σ'⟩
  | [], _, h => by
    rw [evalArgs] at h
    rw [argsCode]
    cases h
    exact .nil
  | arg :: rest, hg, h => by
    rw [evalArgs] at h
    rw [ArgsGenerable] at hg
    rw [argsCode]
    obtain ⟨⟨y, σ₁⟩, hy, h⟩ := Option.bind_eq_some_iff.mp h
    obtain ⟨⟨ys, σ₂⟩, hys, h⟩ := Option.bind_eq_some_iff.mp h
    cases h
    rw [List.reverse_cons, List.append_assoc]
    exact (arg.computes hg.1 hy).append (computes_args rest hg.2 hys)

end

end

end JackToolchain.Jack
