import JackToolchain.Proofs.Jack.ExpressionCode
import JackToolchain.Proofs.Jack.Labels

/-!
# The code of statements ends as the statements do

The statements of a subroutine run to an outcome, and their code leads to it (`Runs.ends`): if they
run through, the code leads to its end, and if one of them returns a value, the code leads to a
`return` with the value on top of the stack, with nothing pushed or popped below it.  The induction
is on the run, so a loop is followed as often as it repeats.  What a stretch of code leads to is
said for every program that has the stretch and declares no label twice, so that jumps are within
view.
-/

namespace JackToolchain.Jack

open VM (Command Environment Machine Reaches Store declaredLabels)

/-- The code of what can be run, the first label of which has the number `n`. -/
def Runnable.code (names : Naming) (n : Nat) : Runnable → List Command
  | .one s => s.code names n
  | .all body => statementsCode names n body

/-- Whether what can be run has code. -/
def Runnable.Generable (names : Naming) : Runnable → Prop
  | .one s => s.Generable names
  | .all body => AllGenerable names body

/-- Code leads to an outcome: to the place behind it, or to a `return` with the value on the
stack. -/
def Ends (env : Environment) (code : List Command) (place : Nat) (v : View) (behind : Nat)
    (s : List Word) : Outcome → Prop
  | .through σ => Leads env code place v behind ⟨s, σ⟩
  | .returned value σ =>
    ∃ last, code[last]? = some .ret ∧ Leads env code place v last ⟨value :: s, σ⟩

section
variable {env : Environment} {names : Naming} {code : List Command} {s : List Word}
  {σ σ₁ : Store} {x : Word}
variable {place target : Nat} {name : String}

theorem Leads.ends {place' behind : Nat} {u v : View} {o : Outcome}
    (h : Leads env code place u place' v) (h' : Ends env code place' v behind s o) :
    Ends env code place u behind s o := by
  cases o with
  | through => exact h.trans h'
  | returned =>
    obtain ⟨last, hlast, h'⟩ := h'
    exact ⟨last, hlast, h.trans h'⟩

/-- Once it has led to its end, code may lead on. -/
theorem Ends.trans_leads {behind behind' : Nat} {u : View} {o : Outcome}
    (h : Ends env code place u behind s o) (h' : ∀ σ, Leads env code behind ⟨s, σ⟩ behind' ⟨s, σ⟩) :
    Ends env code place u behind' s o := by
  cases o with
  | through σ => exact Leads.trans h (h' σ)
  | returned => exact h

/-! ### Jumps -/

theorem leads_label (h : code[place]? = some (.label name)) :
    Leads env code place ⟨s, σ⟩ (place + 1) ⟨s, σ⟩ :=
  fun m hm => ⟨m, .single h rfl, hm⟩

theorem leads_goto (hd : (declaredLabels code).Nodup) (h : code[place]? = some (.goto name))
    (hlabel : code[target]? = some (.label name)) : Leads env code place ⟨s, σ⟩ target ⟨s, σ⟩ := by
  intro m hm
  refine ⟨m, .single h ?_, hm⟩
  rw [VM.execute, VM.labelPlace_eq_some hd hlabel]
  rfl

/-- A condition that holds is passed. -/
theorem leads_of_holds {condition : Expr} (hg : condition.Generable names)
    (he : condition.eval env names σ = some (x, σ₁)) (hx : holds x)
    (hplaced : PlacedAt code place (condition.code names ++ [.arith .not, .ifGoto name])) :
    Leads env code place ⟨s, σ⟩
      (place + (condition.code names ++ [Command.arith .not, .ifGoto name]).length) ⟨s, σ₁⟩ := by
  rw [List.length_append, ← Nat.add_assoc]
  obtain ⟨hcondition, htest⟩ := placedAt_append.mp hplaced
  obtain ⟨hnot, htest⟩ := placedAt_cons.mp htest
  obtain ⟨hjump, -⟩ := placedAt_cons.mp htest
  refine (condition.computes hg he code place hcondition).trans fun m hm => ?_
  obtain ⟨σ', stack, thatBase, temp⟩ := m
  cases hm
  refine ⟨⟨σ', s, thatBase, temp⟩, (Reaches.single hnot rfl).trans (.single hjump ?_), rfl⟩
  have hzero : ~~~x = 0 := by
    rw [hx]
    decide
  exact if_pos hzero

/-- A condition that does not hold leads behind the label that its test names. -/
theorem leads_of_not_holds {condition : Expr} (hd : (declaredLabels code).Nodup)
    (hg : condition.Generable names) (he : condition.eval env names σ = some (x, σ₁))
    (hx : ¬ holds x)
    (hplaced : PlacedAt code place (condition.code names ++ [.arith .not, .ifGoto name]))
    (hlabel : code[target]? = some (.label name)) :
    Leads env code place ⟨s, σ⟩ (target + 1) ⟨s, σ₁⟩ := by
  obtain ⟨hcondition, htest⟩ := placedAt_append.mp hplaced
  obtain ⟨hnot, htest⟩ := placedAt_cons.mp htest
  obtain ⟨hjump, -⟩ := placedAt_cons.mp htest
  refine ((condition.computes hg he code place hcondition).trans fun m hm => ?_).trans
    (leads_label hlabel)
  obtain ⟨σ', stack, thatBase, temp⟩ := m
  cases hm
  refine ⟨⟨σ', s, thatBase, temp⟩, (Reaches.single hnot rfl).trans (.single hjump ?_), rfl⟩
  have hnonzero : ~~~x ≠ 0 := by
    intro hzero
    refine hx ?_
    rw [← BitVec.not_not (b := x), hzero]
    rfl
  refine (if_neg hnonzero).trans ?_
  rw [VM.labelPlace_eq_some hd hlabel]
  rfl

/-! ### Statements -/

theorem computes_assign {y : Ident} {value : Expr} {v : Variable} {w : Word} (n : Nat)
    (hg : (Statement.assign y value).Generable names) (hv : names.lookup y.name = some v)
    (he : value.eval env names σ = some (w, σ₁)) :
    Computes env ((Statement.assign y value).code names n) ⟨s, σ⟩ ⟨s, v.assign w σ₁⟩ := by
  rw [Statement.Generable] at hg
  rw [Statement.code]
  unfold Naming.popCode
  rw [hv]
  exact (value.computes hg.2 he).append (computes_popVariable v w)

theorem computes_assignElement {array : Ident} {subscript value : Expr} {v : Variable} {i w : Word}
    {σ₂ : Store} (n : Nat) (hg : (Statement.assignElement array subscript value).Generable names)
    (hv : names.lookup array.name = some v) (hi : subscript.eval env names σ = some (i, σ₁))
    (hw : value.eval env names σ₁ = some (w, σ₂)) :
    Computes env ((Statement.assignElement array subscript value).code names n) ⟨s, σ⟩
      ⟨s, storeElement (v.value σ + i) w σ₂⟩ := by
  rw [Statement.Generable] at hg
  rw [Statement.code]
  unfold Naming.pushCode
  rw [hv]
  have hadd : VM.ArithOp.apply .add (i :: v.value σ :: s) = some ((v.value σ + i) :: s) := rfl
  have haddress : Computes env _ ⟨s, σ⟩ ⟨(v.value σ + i) :: s, σ₁⟩ :=
    ((computes_pushVariable v).append (subscript.computes hg.2.1 hi)).append (computes_arith hadd)
  exact (haddress.append (value.computes hg.2.2 hw)).append (computes_writeElement _ w)

/-- The code of a body leads to an outcome, wherever in the code it stands. -/
def BodyEnds (env : Environment) (names : Naming) (code : List Command) (n : Nat)
    (body : List Statement) (σ : Store) (s : List Word) (o : Outcome) : Prop :=
  ∀ place, PlacedAt code place (statementsCode names n body) →
    Ends env code place ⟨s, σ⟩ (place + (statementsCode names n body).length) s o

section
variable {condition : Expr} {body alternative : List Statement} {n : Nat} {o : Outcome}

theorem ends_ifHolds (hg : condition.Generable names)
    (he : condition.eval env names σ = some (x, σ₁)) (hx : holds x)
    (hplaced : PlacedAt code place ((Statement.ifThen condition body).code names n))
    (hbody : BodyEnds env names code (n + 1) body σ₁ s o) :
    Ends env code place ⟨s, σ⟩
      (place + ((Statement.ifThen condition body).code names n).length) s o := by
  rw [Statement.code] at hplaced ⊢
  obtain ⟨hplaced, hend⟩ := placedAt_append.mp hplaced
  obtain ⟨htest, hblock⟩ := placedAt_append.mp hplaced
  rw [List.length_append, ← Nat.add_assoc] at hend
  rw [List.length_append, List.length_append, ← Nat.add_assoc, ← Nat.add_assoc]
  have hthrough := (hbody _ hblock).trans_leads fun _ => leads_label (placedAt_cons.mp hend).1
  exact (leads_of_holds hg he hx htest).ends hthrough

theorem leads_ifFails (hd : (declaredLabels code).Nodup) (hg : condition.Generable names)
    (he : condition.eval env names σ = some (x, σ₁)) (hx : ¬ holds x)
    (hplaced : PlacedAt code place ((Statement.ifThen condition body).code names n)) :
    Leads env code place ⟨s, σ⟩
      (place + ((Statement.ifThen condition body).code names n).length) ⟨s, σ₁⟩ := by
  rw [Statement.code] at hplaced ⊢
  obtain ⟨hplaced, hend⟩ := placedAt_append.mp hplaced
  obtain ⟨htest, -⟩ := placedAt_append.mp hplaced
  rw [List.length_append, ← Nat.add_assoc]
  exact leads_of_not_holds hd hg he hx htest (placedAt_cons.mp hend).1

theorem ends_thenBlock (hd : (declaredLabels code).Nodup) (hg : condition.Generable names)
    (he : condition.eval env names σ = some (x, σ₁)) (hx : holds x)
    (hplaced : PlacedAt code place ((Statement.ifElse condition body alternative).code names n))
    (hbody : BodyEnds env names code (n + 1) body σ₁ s o) :
    Ends env code place ⟨s, σ⟩
      (place + ((Statement.ifElse condition body alternative).code names n).length) s o := by
  rw [Statement.code] at hplaced ⊢
  obtain ⟨hplaced, hend⟩ := placedAt_append.mp hplaced
  obtain ⟨hplaced, -⟩ := placedAt_append.mp hplaced
  obtain ⟨hplaced, hmiddle⟩ := placedAt_append.mp hplaced
  obtain ⟨htest, hblock⟩ := placedAt_append.mp hplaced
  rw [List.length_append, ← Nat.add_assoc] at hmiddle
  rw [List.length_append, ← Nat.add_assoc]
  have hlabel := (placedAt_cons.mp hend).1
  have hthrough := (hbody _ hblock).trans_leads fun _ =>
    (leads_goto hd (placedAt_cons.mp hmiddle).1 hlabel).trans (leads_label hlabel)
  exact (leads_of_holds hg he hx htest).ends hthrough

theorem ends_elseBlock (hd : (declaredLabels code).Nodup) (hg : condition.Generable names)
    (he : condition.eval env names σ = some (x, σ₁)) (hx : ¬ holds x)
    (hplaced : PlacedAt code place ((Statement.ifElse condition body alternative).code names n))
    (halternative : BodyEnds env names code (n + (1 + labelsOf body)) alternative σ₁ s o) :
    Ends env code place ⟨s, σ⟩
      (place + ((Statement.ifElse condition body alternative).code names n).length) s o := by
  rw [Statement.code] at hplaced ⊢
  obtain ⟨hplaced, hend⟩ := placedAt_append.mp hplaced
  obtain ⟨hplaced, helse⟩ := placedAt_append.mp hplaced
  obtain ⟨hplaced, hmiddle⟩ := placedAt_append.mp hplaced
  obtain ⟨htest, -⟩ := placedAt_append.mp hplaced
  obtain ⟨-, hmiddle⟩ := placedAt_cons.mp hmiddle
  rw [List.length_append, ← Nat.add_assoc] at hend
  rw [List.length_append, List.length_append, ← Nat.add_assoc, ← Nat.add_assoc]
  have hskip := leads_of_not_holds (s := s) hd hg he hx htest (placedAt_cons.mp hmiddle).1
  rw [List.length_append, ← Nat.add_assoc] at helse hend ⊢
  have hthrough := (halternative _ helse).trans_leads fun _ =>
    leads_label (placedAt_cons.mp hend).1
  exact hskip.ends hthrough

/-! ### Loops -/

/-- The parts of a loop at their places. -/
theorem placedAt_while
    (hplaced : PlacedAt code place ((Statement.while condition body).code names n)) :
    ∃ first last, code[place]? = some (.label (whileStart n)) ∧
      PlacedAt code (place + 1) (condition.code names ++ [.arith .not, .ifGoto (whileEnd n)]) ∧
      first = place + 1 +
        (condition.code names ++ [Command.arith .not, .ifGoto (whileEnd n)]).length ∧
      PlacedAt code first (statementsCode names (n + 1) body) ∧
      last = first + (statementsCode names (n + 1) body).length ∧
      code[last]? = some (.goto (whileStart n)) ∧
      code[last + 1]? = some (.label (whileEnd n)) ∧
      place + ((Statement.while condition body).code names n).length = last + 1 + 1 := by
  rw [Statement.code, List.append_assoc, List.append_assoc, List.append_assoc,
    List.singleton_append] at hplaced
  obtain ⟨hstart, hplaced⟩ := placedAt_cons.mp hplaced
  rw [← List.append_assoc] at hplaced
  obtain ⟨htest, hplaced⟩ := placedAt_append.mp hplaced
  obtain ⟨hbody, hplaced⟩ := placedAt_append.mp hplaced
  obtain ⟨hgoto, hend⟩ := placedAt_cons.mp hplaced
  refine ⟨_, _, hstart, htest, rfl, hbody, rfl, hgoto, (placedAt_cons.mp hend).1, ?_⟩
  rw [Statement.code]
  simp only [List.length_append, List.length_cons, List.length_nil]
  omega

theorem leads_whileFails (hd : (declaredLabels code).Nodup) (hg : condition.Generable names)
    (he : condition.eval env names σ = some (x, σ₁)) (hx : ¬ holds x)
    (hplaced : PlacedAt code place ((Statement.while condition body).code names n)) :
    Leads env code place ⟨s, σ⟩
      (place + ((Statement.while condition body).code names n).length) ⟨s, σ₁⟩ := by
  obtain ⟨first, last, hstart, htest, -, -, -, -, hend, hlength⟩ := placedAt_while hplaced
  rw [hlength]
  exact (leads_label hstart).trans (leads_of_not_holds hd hg he hx htest hend)

/-- One round of a loop leads back to its beginning. -/
theorem leads_round {σ₂ : Store} (hd : (declaredLabels code).Nodup) (hg : condition.Generable names)
    (he : condition.eval env names σ = some (x, σ₁)) (hx : holds x)
    (hplaced : PlacedAt code place ((Statement.while condition body).code names n))
    (hbody : BodyEnds env names code (n + 1) body σ₁ s (.through σ₂)) :
    Leads env code place ⟨s, σ⟩ place ⟨s, σ₂⟩ := by
  obtain ⟨first, last, hstart, htest, rfl, hblock, rfl, hgoto, -, -⟩ := placedAt_while hplaced
  have henter : Leads env code place ⟨s, σ⟩ _ ⟨s, σ₁⟩ :=
    (leads_label hstart).trans (leads_of_holds hg he hx htest)
  exact (henter.trans (hbody _ hblock)).trans (leads_goto hd hgoto hstart)

theorem ends_whileReturns {σ₂ : Store} {value : Word} (hg : condition.Generable names)
    (he : condition.eval env names σ = some (x, σ₁)) (hx : holds x)
    (hplaced : PlacedAt code place ((Statement.while condition body).code names n))
    (hbody : BodyEnds env names code (n + 1) body σ₁ s (.returned value σ₂)) (behind : Nat) :
    Ends env code place ⟨s, σ⟩ behind s (.returned value σ₂) := by
  obtain ⟨first, last, hstart, htest, rfl, hblock, -, -, -, -⟩ := placedAt_while hplaced
  have henter : Leads env code place ⟨s, σ⟩ _ ⟨s, σ₁⟩ :=
    (leads_label hstart).trans (leads_of_holds hg he hx htest)
  obtain ⟨final, hret, hreturn⟩ := hbody _ hblock
  exact ⟨final, hret, henter.trans hreturn⟩

end

/-! ### Returns -/

theorem ends_returnValue {value : Expr} (hg : value.Generable names)
    (he : value.eval env names σ = some (x, σ₁))
    (hplaced : PlacedAt code place (value.code names ++ [.ret])) (behind : Nat) :
    Ends env code place ⟨s, σ⟩ behind s (.returned x σ₁) := by
  obtain ⟨hvalue, hret⟩ := placedAt_append.mp hplaced
  exact ⟨_, (placedAt_cons.mp hret).1, value.computes hg he code place hvalue⟩

theorem ends_returnNothing (hplaced : PlacedAt code place [.push .constant 0, .ret])
    (behind : Nat) : Ends env code place ⟨s, σ⟩ behind s (.returned 0 σ) := by
  have hsplit : PlacedAt code place ([.push .constant 0] ++ [.ret]) := hplaced
  obtain ⟨hzero, hret⟩ := placedAt_append.mp hsplit
  exact ⟨_, (placedAt_cons.mp hret).1, computes_pushConstant 0 code place hzero⟩

/-! ### Runs -/

/-- **The code of statements ends as the statements do.** -/
theorem Runs.ends {r : Runnable} {o : Outcome} (h : Runs env names r σ o)
    (hd : (declaredLabels code).Nodup) (n place : Nat) (s : List Word) (hg : r.Generable names)
    (hplaced : PlacedAt code place (r.code names n)) :
    Ends env code place ⟨s, σ⟩ (place + (r.code names n).length) s o := by
  induction h generalizing n place with
  | done =>
    rw [Runnable.code, statementsCode]
    exact Leads.refl
  | next first others ihFirst ihOthers =>
    rw [Runnable.Generable, AllGenerable] at hg
    rw [Runnable.code, statementsCode] at hplaced ⊢
    obtain ⟨hs, hrest⟩ := placedAt_append.mp hplaced
    rw [List.length_append, ← Nat.add_assoc]
    exact Leads.ends (ihFirst n place hg.1 hs) (ihOthers _ _ hg.2 hrest)
  | stop first ih =>
    rw [Runnable.Generable, AllGenerable] at hg
    rw [Runnable.code, statementsCode] at hplaced
    exact ih n place hg.1 (placedAt_append.mp hplaced).1
  | assign target eval => exact computes_assign n hg target eval code place hplaced
  | assignElement target index eval =>
    exact computes_assignElement n hg target index eval code place hplaced
  | ifHolds eval test block ih =>
    rw [Runnable.Generable, Statement.Generable] at hg
    exact ends_ifHolds hg.1 eval test hplaced fun place => ih (n + 1) place hg.2
  | ifFails eval test =>
    rw [Runnable.Generable, Statement.Generable] at hg
    exact leads_ifFails hd hg.1 eval test hplaced
  | thenBlock eval test block ih =>
    rw [Runnable.Generable, Statement.Generable] at hg
    exact ends_thenBlock hd hg.1 eval test hplaced fun place => ih (n + 1) place hg.2.1
  | elseBlock eval test block ih =>
    rw [Runnable.Generable, Statement.Generable] at hg
    exact ends_elseBlock hd hg.1 eval test hplaced fun place => ih _ place hg.2.2
  | whileFails eval test =>
    rw [Runnable.Generable, Statement.Generable] at hg
    exact leads_whileFails hd hg.1 eval test hplaced
  | whileAgain eval test block again ihBlock ihAgain =>
    have hgenerable := hg
    rw [Runnable.Generable, Statement.Generable] at hgenerable
    have hround := leads_round hd hgenerable.1 eval test hplaced fun place =>
      ihBlock (n + 1) place hgenerable.2
    exact hround.ends (ihAgain n place hg hplaced)
  | whileReturns eval test block ih =>
    rw [Runnable.Generable, Statement.Generable] at hg
    exact ends_whileReturns hg.1 eval test hplaced (fun place => ih (n + 1) place hg.2) _
  | call eval =>
    rw [Runnable.Generable, Statement.Generable] at hg
    rw [Runnable.code, Statement.code] at hplaced ⊢
    exact ((Call.computes _ hg eval).append (computes_discard _)) code place hplaced
  | returnValue eval =>
    rw [Runnable.Generable, Statement.Generable] at hg
    rw [Runnable.code, Statement.code] at hplaced
    exact ends_returnValue hg eval hplaced _
  | returnNothing =>
    rw [Runnable.code, Statement.code] at hplaced
    exact ends_returnNothing hplaced _

end

end JackToolchain.Jack
