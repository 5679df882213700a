import JackToolchain.Proofs.Jack.Code
import JackToolchain.Proofs.Text.Decimal
import JackToolchain.Proofs.VM.Machine

/-!
# The labels of a subroutine are different

Every label that generation writes carries a number, and no number is used up twice.  A statement
declares labels with the numbers that it uses up and no others, so the labels of statements in a
row, and of a statement and its parts, are different.  That is what a jump by name needs in order to
have one target.
-/

namespace JackToolchain.Jack

open VM (Command declaredLabels declaredLabels_append jumpTargets jumpTargets_append)

/-! ### Names -/

/-- The labels that carry a number. -/
def numberedLabels (n : Nat) : List String := [ifEnd n, ifElse n, whileStart n, whileEnd n]

/-- Texts with different fixed parts in front are different, whatever numbers follow. -/
theorem label_ne {front front' : String} (rest rest' : String) {i : Nat}
    (h : i < front.toList.length) (h' : i < front'.toList.length)
    (hne : front.toList[i]? ≠ front'.toList[i]?) : front ++ rest ≠ front' ++ rest' := by
  intro heq
  have hlist := congrArg (fun text => text.toList[i]?) heq
  rw [String.toList_append, String.toList_append, List.getElem?_append_left h,
    List.getElem?_append_left h'] at hlist
  exact hne hlist

theorem label_inj {front : String} {n k : Nat} (h : front ++ toString n = front ++ toString k) :
    n = k := by
  have hlist := congrArg String.toList h
  rw [String.toList_append, String.toList_append] at hlist
  exact Text.toString_inj (String.toList_inj.mp (List.append_cancel_left hlist))

theorem ifEnd_ne_ifElse (n k : Nat) : ifEnd n ≠ ifElse k :=
  label_ne _ _ (show 4 < _ by decide) (by decide) (by decide)

theorem ifEnd_ne_whileStart (n k : Nat) : ifEnd n ≠ whileStart k :=
  label_ne _ _ (show 0 < _ by decide) (by decide) (by decide)

theorem ifEnd_ne_whileEnd (n k : Nat) : ifEnd n ≠ whileEnd k :=
  label_ne _ _ (show 0 < _ by decide) (by decide) (by decide)

theorem ifElse_ne_whileStart (n k : Nat) : ifElse n ≠ whileStart k :=
  label_ne _ _ (show 0 < _ by decide) (by decide) (by decide)

theorem ifElse_ne_whileEnd (n k : Nat) : ifElse n ≠ whileEnd k :=
  label_ne _ _ (show 0 < _ by decide) (by decide) (by decide)

theorem whileStart_ne_whileEnd (n k : Nat) : whileStart n ≠ whileEnd k :=
  label_ne _ _ (show 7 < _ by decide) (by decide) (by decide)

theorem nodup_numberedLabels (n : Nat) : (numberedLabels n).Nodup := by
  unfold numberedLabels
  simp [ifEnd_ne_ifElse, ifEnd_ne_whileStart, ifEnd_ne_whileEnd, ifElse_ne_whileStart,
    ifElse_ne_whileEnd, whileStart_ne_whileEnd]

/-- A label carries one number. -/
theorem eq_of_mem_numberedLabels {x : String} {n k : Nat} (h : x ∈ numberedLabels n)
    (h' : x ∈ numberedLabels k) : n = k := by
  simp only [numberedLabels, List.mem_cons, List.not_mem_nil, or_false] at h h'
  rcases h with rfl | rfl | rfl | rfl
  · rcases h' with h' | h' | h' | h'
    · exact label_inj h'
    · exact absurd h' (ifEnd_ne_ifElse n k)
    · exact absurd h' (ifEnd_ne_whileStart n k)
    · exact absurd h' (ifEnd_ne_whileEnd n k)
  · rcases h' with h' | h' | h' | h'
    · exact absurd h'.symm (ifEnd_ne_ifElse k n)
    · exact label_inj h'
    · exact absurd h' (ifElse_ne_whileStart n k)
    · exact absurd h' (ifElse_ne_whileEnd n k)
  · rcases h' with h' | h' | h' | h'
    · exact absurd h'.symm (ifEnd_ne_whileStart k n)
    · exact absurd h'.symm (ifElse_ne_whileStart k n)
    · exact label_inj h'
    · exact absurd h' (whileStart_ne_whileEnd n k)
  · rcases h' with h' | h' | h' | h'
    · exact absurd h'.symm (ifEnd_ne_whileEnd k n)
    · exact absurd h'.symm (ifElse_ne_whileEnd k n)
    · exact absurd h'.symm (whileStart_ne_whileEnd k n)
    · exact label_inj h'

/-! ### Ranges of numbers -/

/-- Labels are different and carry numbers from `lo` up to and without `hi`. -/
structure LabelsIn (lo hi : Nat) (labels : List String) : Prop where
  nodup : labels.Nodup
  numbered : ∀ x ∈ labels, ∃ k, lo ≤ k ∧ k < hi ∧ x ∈ numberedLabels k

namespace LabelsIn

variable {lo mid hi n : Nat} {xs ys : List String}

theorem nil (lo hi : Nat) : LabelsIn lo hi [] :=
  ⟨List.nodup_nil, fun _ hx => absurd hx List.not_mem_nil⟩

/-- Labels from two ranges, one behind the other. -/
theorem append (h : LabelsIn lo mid xs) (h' : LabelsIn mid hi ys) (hlo : lo ≤ mid)
    (hhi : mid ≤ hi) : LabelsIn lo hi (xs ++ ys) := by
  constructor
  · refine List.nodup_append.mpr ⟨h.nodup, h'.nodup, ?_⟩
    rintro x hx y hy rfl
    obtain ⟨k, -, hk, hxk⟩ := h.numbered x hx
    obtain ⟨j, hj, -, hxj⟩ := h'.numbered x hy
    have heq := eq_of_mem_numberedLabels hxk hxj
    omega
  · intro x hx
    rcases List.mem_append.mp hx with hx | hx
    · obtain ⟨k, hk, hk', hxk⟩ := h.numbered x hx
      exact ⟨k, hk, by omega, hxk⟩
    · obtain ⟨k, hk, hk', hxk⟩ := h'.numbered x hx
      exact ⟨k, by omega, hk', hxk⟩

/-- Labels with one number. -/
theorem single (h : xs.Sublist (numberedLabels n)) : LabelsIn n (n + 1) xs :=
  ⟨(nodup_numberedLabels n).sublist h,
    fun _ hx => ⟨n, Nat.le_refl n, Nat.lt_succ_self n, h.subset hx⟩⟩

theorem perm (h : LabelsIn lo hi xs) (hp : xs.Perm ys) : LabelsIn lo hi ys :=
  ⟨hp.nodup_iff.mp h.nodup, fun x hx => h.numbered x (hp.mem_iff.mpr hx)⟩

end LabelsIn

/-! ### Straight code -/

/-- Commands behind which the next one is executed, and that declare nothing. -/
def straight : Command → Bool
  | .push .. | .pop .. | .arith _ | .call .. => true
  | _ => false

theorem declaredLabels_of_straight {code : List Command} (h : code.all straight = true) :
    declaredLabels code = [] := by
  refine List.filterMap_eq_nil_iff.mpr fun c hc => ?_
  have hstraight := List.all_eq_true.mp h c hc
  cases c with
  | push | pop | arith | call | goto | ifGoto | function | ret => rfl
  | label => cases hstraight

theorem straight_appendCode (units : List Word) : (appendCode units).all straight = true := by
  induction units with
  | nil => rfl
  | cons unit rest ih => exact ih

theorem Literal.straight_code (value : Literal) : value.code.all straight := by
  cases value with
  | string contents =>
    show (stringCode contents).all straight
    unfold stringCode
    rw [List.all_append, straight_appendCode]
    rfl
  | int | true | false | null | this => rfl

theorem Naming.straight_pushCode (names : Naming) (x : Ident) :
    (names.pushCode x).all straight = true := by
  unfold Naming.pushCode
  cases names.lookup x.name <;> rfl

theorem Naming.straight_popCode (names : Naming) (x : Ident) :
    (names.popCode x).all straight = true := by
  unfold Naming.popCode
  cases names.lookup x.name <;> rfl

theorem Naming.straight_receiverCode (names : Naming) (receiver : Option Ident) :
    (names.receiverCode receiver).all straight = true := by
  cases receiver with
  | none => rfl
  | some x => exact names.straight_pushCode x

theorem straight_unaryCommand (op : UnaryOp) : straight (Generation.unaryCommand op) = true := by
  cases op <;> rfl

theorem straight_binaryCommand (op : BinaryOp) : straight (Generation.binaryCommand op) = true := by
  cases op <;> rfl

mutual

theorem Term.straight_code (names : Naming) : ∀ t : Term, (t.code names).all straight = true
  | .literal value => by
    rw [Term.code]
    exact value.straight_code
  | .var x => by
    rw [Term.code]
    exact names.straight_pushCode x
  | .element array subscript => by
    rw [Term.code, List.all_append, List.all_append, names.straight_pushCode,
      subscript.straight_code]
    rfl
  | .call call => by
    rw [Term.code]
    exact call.straight_code names
  | .paren inner => by
    rw [Term.code]
    exact inner.straight_code names
  | .unary op operand => by
    rw [Term.code, List.all_append, operand.straight_code, List.all_cons, straight_unaryCommand]
    rfl

/-- The code of an expression is straight. -/
theorem Expr.straight_code (names : Naming) : ∀ e : Expr, (e.code names).all straight = true
  | .mk head tail => by
    rw [Expr.code, List.all_append, head.straight_code, straight_operandsCode names tail]
    rfl

theorem straight_operandsCode (names : Naming) :
    ∀ operands : List Operand, (operandsCode names operands).all straight = true
  | [] => by
    rw [operandsCode]
    rfl
  | .mk op term :: rest => by
    rw [operandsCode, List.all_append, term.straight_code, List.all_cons, straight_binaryCommand,
      straight_operandsCode names rest]
    rfl

theorem Call.straight_code (names : Naming) : ∀ call : Call, (call.code names).all straight = true
  | .mk receiver _ _ args => by
    rw [Call.code, List.all_append, List.all_append, names.straight_receiverCode,
      straight_argsCode names args]
    rfl

theorem straight_argsCode (names : Naming) :
    ∀ args : List Expr, (argsCode names args).all straight = true
  | [] => by
    rw [argsCode]
    rfl
  | arg :: rest => by
    rw [argsCode, List.all_append, arg.straight_code, straight_argsCode names rest]
    rfl

end

theorem SubroutineKind.straight_setupCode (fields : Nat) (kind : SubroutineKind) :
    (kind.setupCode fields).all straight = true := by
  cases kind <;> rfl

/-! ### Statements -/

mutual

theorem Statement.labelsIn (names : Naming) (n : Nat) :
    ∀ s : Statement, LabelsIn n (n + s.labels) (declaredLabels (s.code names n))
  | .assign x value => by
    rw [Statement.code, declaredLabels_append,
      declaredLabels_of_straight (value.straight_code names),
      declaredLabels_of_straight (names.straight_popCode x)]
    exact .nil _ _
  | .assignElement array subscript value => by
    simp only [Statement.code, declaredLabels_append,
      declaredLabels_of_straight (names.straight_pushCode _),
      declaredLabels_of_straight (Expr.straight_code names _)]
    exact .nil _ _
  | .ifThen condition body => by
    have hbody := statements_labelsIn names (n + 1) body
    have hends : LabelsIn n (n + 1) [ifEnd n] := .single (by simp [numberedLabels])
    have hall := hends.append hbody (by omega) (by omega)
    simp only [Statement.code, Statement.labels, declaredLabels_append,
      declaredLabels_of_straight (condition.straight_code names), ← Nat.add_assoc]
    exact hall.perm (List.perm_append_comm ..)
  | .ifElse condition body alternative => by
    have hbody := statements_labelsIn names (n + 1) body
    have helse := statements_labelsIn names (n + (1 + labelsOf body)) alternative
    rw [← Nat.add_assoc] at helse
    have hends : LabelsIn n (n + 1) [ifEnd n, ifElse n] := .single (by simp [numberedLabels])
    have hall := (hends.append hbody (by omega) (by omega)).append helse (by omega) (by omega)
    simp only [Statement.code, Statement.labels, declaredLabels_append,
      declaredLabels_of_straight (condition.straight_code names), ← Nat.add_assoc]
    refine hall.perm ?_
    -- The labels of the statement itself stand between and behind those of its parts.
    generalize declaredLabels (statementsCode names (n + 1) body) = xs
    generalize declaredLabels (statementsCode names (n + 1 + labelsOf body) alternative) = ys
    have hlast : ([ifEnd n] ++ ([ifElse n] ++ xs ++ ys)).Perm
        ([ifElse n] ++ xs ++ ys ++ [ifEnd n]) :=
      List.perm_append_comm
    exact hlast.trans ((List.perm_append_comm.append_right ys).append_right [ifEnd n])
  | .while condition body => by
    have hbody := statements_labelsIn names (n + 1) body
    have hends : LabelsIn n (n + 1) [whileStart n, whileEnd n] := .single (by simp [numberedLabels])
    have hall := hends.append hbody (by omega) (by omega)
    simp only [Statement.code, Statement.labels, declaredLabels_append,
      declaredLabels_of_straight (condition.straight_code names), ← Nat.add_assoc]
    refine hall.perm ?_
    exact List.Perm.cons _ (List.perm_append_singleton (whileEnd n) _).symm
  | .do call => by
    rw [Statement.code, declaredLabels_append,
      declaredLabels_of_straight (call.straight_code names)]
    exact .nil _ _
  | .return (some value) => by
    rw [Statement.code, declaredLabels_append,
      declaredLabels_of_straight (value.straight_code names)]
    exact .nil _ _
  | .return none => by
    rw [Statement.code]
    exact .nil _ _

theorem statements_labelsIn (names : Naming) (n : Nat) :
    ∀ body : List Statement,
      LabelsIn n (n + labelsOf body) (declaredLabels (statementsCode names n body))
  | [] => by
    rw [statementsCode]
    exact .nil _ _
  | s :: rest => by
    have hs := s.labelsIn names n
    have hrest := statements_labelsIn names (n + s.labels) rest
    rw [statementsCode, labelsOf, declaredLabels_append, ← Nat.add_assoc]
    exact hs.append hrest (by omega) (by omega)

end

/-! ### Jumps -/

theorem jumpTargets_of_straight {code : List Command} (h : code.all straight = true) :
    jumpTargets code = [] := by
  refine List.filterMap_eq_nil_iff.mpr fun c hc => ?_
  have hstraight := List.all_eq_true.mp h c hc
  cases c with
  | push | pop | arith | call | label | function | ret => rfl
  | goto | ifGoto => cases hstraight

mutual

theorem Statement.jumpTargets_subset (names : Naming) (n : Nat) :
    ∀ s : Statement, jumpTargets (s.code names n) ⊆ declaredLabels (s.code names n)
  | .assign x value => by
    rw [Statement.code, jumpTargets_append, jumpTargets_of_straight (value.straight_code names),
      jumpTargets_of_straight (names.straight_popCode x)]
    exact List.nil_subset _
  | .assignElement array subscript value => by
    simp only [Statement.code, jumpTargets_append,
      jumpTargets_of_straight (names.straight_pushCode _),
      jumpTargets_of_straight (Expr.straight_code names _)]
    exact List.nil_subset _
  | .ifThen condition body => by
    have hbody := jumpTargets_statementsCode_subset names (n + 1) body
    simp only [Statement.code, jumpTargets_append, declaredLabels_append,
      jumpTargets_of_straight (condition.straight_code names)]
    grind [jumpTargets, declaredLabels, Command.target?]
  | .ifElse condition body alternative => by
    have hbody := jumpTargets_statementsCode_subset names (n + 1) body
    have helse := jumpTargets_statementsCode_subset names (n + (1 + labelsOf body)) alternative
    simp only [Statement.code, jumpTargets_append, declaredLabels_append,
      jumpTargets_of_straight (condition.straight_code names)]
    grind [jumpTargets, declaredLabels, Command.target?]
  | .while condition body => by
    have hbody := jumpTargets_statementsCode_subset names (n + 1) body
    simp only [Statement.code, jumpTargets_append, declaredLabels_append,
      jumpTargets_of_straight (condition.straight_code names)]
    grind [jumpTargets, declaredLabels, Command.target?]
  | .do call => by
    rw [Statement.code, jumpTargets_append, jumpTargets_of_straight (call.straight_code names)]
    exact List.nil_subset _
  | .return (some value) => by
    rw [Statement.code, jumpTargets_append, jumpTargets_of_straight (value.straight_code names)]
    exact List.nil_subset _
  | .return none => by
    rw [Statement.code]
    exact List.nil_subset _

/-- **Statements jump to the labels that they declare.** -/
theorem jumpTargets_statementsCode_subset (names : Naming) (n : Nat) :
    ∀ body : List Statement,
      jumpTargets (statementsCode names n body) ⊆ declaredLabels (statementsCode names n body)
  | [] => by
    rw [statementsCode]
    exact List.nil_subset _
  | s :: rest => by
    have hs := s.jumpTargets_subset names n
    have hrest := jumpTargets_statementsCode_subset names (n + s.labels) rest
    rw [statementsCode, jumpTargets_append, declaredLabels_append]
    exact List.append_subset.mpr ⟨List.subset_append_of_subset_left _ hs,
      List.subset_append_of_subset_right _ hrest⟩

end

/-! ### Functions -/

/-- Commands that begin no function. -/
def inner : Command → Bool
  | .function .. => false
  | _ => true

theorem inner_of_straight {code : List Command} (h : code.all straight = true) :
    code.all inner = true := by
  refine List.all_eq_true.mpr fun c hc => ?_
  have hstraight := List.all_eq_true.mp h c hc
  cases c with
  | push | pop | arith | call | goto | ifGoto | label | ret => rfl
  | function => cases hstraight

mutual

theorem Statement.inner_code (names : Naming) (n : Nat) :
    ∀ s : Statement, (s.code names n).all inner = true
  | .assign x value => by
    rw [Statement.code, List.all_append, inner_of_straight (value.straight_code names),
      inner_of_straight (names.straight_popCode x)]
    rfl
  | .assignElement array subscript value => by
    simp only [Statement.code, List.all_append, inner_of_straight (names.straight_pushCode _),
      inner_of_straight (Expr.straight_code names _)]
    rfl
  | .ifThen condition body => by
    simp only [Statement.code, List.all_append, inner_of_straight (condition.straight_code names),
      inner_statementsCode names _ body]
    rfl
  | .ifElse condition body alternative => by
    simp only [Statement.code, List.all_append, inner_of_straight (condition.straight_code names),
      inner_statementsCode names _ body, inner_statementsCode names _ alternative]
    rfl
  | .while condition body => by
    simp only [Statement.code, List.all_append, inner_of_straight (condition.straight_code names),
      inner_statementsCode names _ body]
    rfl
  | .do call => by
    rw [Statement.code, List.all_append, inner_of_straight (call.straight_code names)]
    rfl
  | .return (some value) => by
    rw [Statement.code, List.all_append, inner_of_straight (value.straight_code names)]
    rfl
  | .return none => by
    rw [Statement.code]
    rfl

/-- The code of statements begins no function. -/
theorem inner_statementsCode (names : Naming) (n : Nat) :
    ∀ body : List Statement, (statementsCode names n body).all inner = true
  | [] => by
    rw [statementsCode]
    rfl
  | s :: rest => by
    rw [statementsCode, List.all_append, s.inner_code, inner_statementsCode names _ rest]
    rfl

end

end JackToolchain.Jack
