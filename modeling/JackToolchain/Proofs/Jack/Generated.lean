import JackToolchain.Proofs.Jack.Code

/-!
# What generation appends

A generation that succeeds has appended the code of its tree to the commands written before, and has
used up the numbers of its labels; names are understood afterwards as they were before
(`Generator.Extends`).  Each step of generation has one fact of this form, and the facts are put
together along the tree.
-/

namespace JackToolchain.Jack

open VM (Command)

/-! ### Steps -/

/-- How a generator understands names. -/
def Generator.naming (g : Generator) : Naming := ⟨g.symbols.lookup, g.className⟩

/-- One generator is the other with more commands written and more labels numbered. -/
structure Generator.Extends (g g' : Generator) (commands : List Command) (labels : Nat) : Prop where
  commands : g'.sink.commands.toList = g.sink.commands.toList ++ commands
  symbols : g'.symbols = g.symbols
  className : g'.className = g.className
  labels : g'.labels = g.labels + labels

namespace Generator.Extends

variable {g g₁ g₂ : Generator} {xs ys : List Command} {j k : Nat}

theorem refl (g : Generator) : g.Extends g [] 0 := ⟨(List.append_nil _).symm, rfl, rfl, rfl⟩

theorem trans (h : g.Extends g₁ xs j) (h' : g₁.Extends g₂ ys k) :
    g.Extends g₂ (xs ++ ys) (j + k) where
  commands := by rw [h'.commands, h.commands, List.append_assoc]
  symbols := h'.symbols.trans h.symbols
  className := h'.className.trans h.className
  labels := by rw [h'.labels, h.labels, Nat.add_assoc]

theorem naming (h : g.Extends g₁ xs j) : g₁.naming = g.naming := by
  unfold Generator.naming
  rw [h.symbols, h.className]

/-- What comes second is generable, and has its code, by the names and labels that there were at
first. -/
theorem andThen (h : g.Extends g₁ xs j) (p : Naming → Prop) (code : Naming → Nat → List Command)
    (h' : p g₁.naming ∧ g₁.Extends g₂ (code g₁.naming g₁.labels) k) :
    p g.naming ∧ g.Extends g₂ (xs ++ code g.naming (g.labels + j)) (j + k) := by
  rw [h.naming, h.labels] at h'
  exact ⟨h'.1, h.trans h'.2⟩

end Generator.Extends

namespace Generation

variable {α β : Type} {g g' : Generator}

/-- If two computations in a row succeed, each of them does. -/
theorem bind_eq_ok {p : Generation α} {f : α → Generation β} {b : β} (h : (p >>= f) g = .ok b g') :
    ∃ a g₁, p g = .ok a g₁ ∧ f a g₁ = .ok b g' := by
  change EStateM.bind p f g = .ok b g' at h
  unfold EStateM.bind at h
  split at h
  · next a g₁ hp => exact ⟨a, g₁, hp, h⟩
  · cases h

theorem emit_eq_ok {c : Command} (h : emit c g = .ok () g') : g.Extends g' [c] 0 := by
  obtain ⟨sink, symbols, className, labels⟩ := g
  simp only [emit] at h
  split at h
  · next hroom =>
    cases h
    refine ⟨?_, rfl, rfl, rfl⟩
    obtain ⟨room, commands, cut⟩ := sink
    cases room with
    | none => simp [Sink.write]
    | some bytes =>
      simp only [Sink.hasRoomFor, decide_eq_true_eq] at hroom
      simp [Sink.write, hroom]
  · cases h

theorem freshLabel_eq_ok {n : Nat} (h : freshLabel g = .ok n g') :
    n = g.labels ∧ g.Extends g' [] 1 := by
  obtain ⟨sink, symbols, className, labels⟩ := g
  cases h
  exact ⟨rfl, (List.append_nil _).symm, rfl, rfl, rfl⟩

theorem lookup_eq_ok {x : Ident} {v : Option Variable} (h : lookup x g = .ok v g') :
    g = g' ∧ g.naming.lookup x.name = v := by
  cases h
  exact ⟨rfl, rfl⟩

theorem resolve_eq_ok {x : Ident} {use : Use} {v : Variable} (h : resolve x use g = .ok v g') :
    g = g' ∧ g.naming.lookup x.name = some v := by
  obtain ⟨found, g₁, hl, hr⟩ := bind_eq_ok h
  obtain ⟨rfl, hv⟩ := lookup_eq_ok hl
  cases found with
  | none => cases hr
  | some w =>
    cases hr
    exact ⟨rfl, hv⟩

theorem counted_eq_ok {n : Nat} {quota : Quota} {span : Span} {w : Word}
    (h : counted n quota span g = .ok w g') : g = g' ∧ w = BitVec.ofNat 16 n ∧ n ≤ Word.maxNat := by
  unfold counted at h
  cases hv : Word.ofNat? n with
  | none =>
    rw [hv] at h
    cases h
  | some v =>
    rw [hv] at h
    cases h
    have hn := Word.ofNat?_eq_some_iff.mp hv
    refine ⟨rfl, ?_, ?_⟩
    · rw [← hn, BitVec.ofNat_toNat, BitVec.setWidth_eq]
    · have := w.isLt
      unfold Word.maxNat
      omega

/-! ### Short sequences -/

theorem pushVariable_eq_ok {x : Ident} {v : Variable} (hv : g.naming.lookup x.name = some v)
    (h : pushVariable v g = .ok () g') : g.Extends g' (g.naming.pushCode x) 0 := by
  unfold Naming.pushCode
  rw [hv]
  exact emit_eq_ok h

theorem appendUnits_eq_ok {units : List Word} (h : appendUnits units g = .ok () g') :
    g.Extends g' (appendCode units) 0 := by
  induction units generalizing g with
  | nil =>
    cases h
    exact .refl _
  | cons unit rest ih =>
    obtain ⟨_, _, h₁, k₁⟩ := bind_eq_ok h
    obtain ⟨_, _, h₂, k₂⟩ := bind_eq_ok k₁
    exact ((emit_eq_ok h₁).trans (emit_eq_ok h₂)).trans (ih k₂)

theorem stringConstant_eq_ok {contents : String} {span : Span}
    (h : stringConstant contents span g = .ok () g') :
    (Text.units contents).length ≤ Word.maxNat ∧ g.Extends g' (stringCode contents) 0 := by
  obtain ⟨w, _, hw, k₁⟩ := bind_eq_ok h
  obtain ⟨rfl, rfl, hlimit⟩ := counted_eq_ok hw
  obtain ⟨_, _, h₁, k₂⟩ := bind_eq_ok k₁
  obtain ⟨_, _, h₂, k₃⟩ := bind_eq_ok k₂
  refine ⟨hlimit, ?_⟩
  exact ((emit_eq_ok h₁).trans (emit_eq_ok h₂)).trans (appendUnits_eq_ok k₃)

theorem literal_eq_ok {value : Literal} (h : literal value g = .ok () g') :
    (Term.literal value).Generable g.naming ∧ g.Extends g' value.code 0 := by
  cases value with
  | int | false | null | this => exact ⟨trivial, emit_eq_ok h⟩
  | string => exact stringConstant_eq_ok h
  | true =>
    obtain ⟨_, _, h₁, k₁⟩ := bind_eq_ok h
    exact ⟨trivial, (emit_eq_ok h₁).trans (emit_eq_ok k₁)⟩

theorem receiver_eq_ok {object : Option Ident} {name : Ident} {target : String} {pushed : Nat}
    (h : receiver object name g = .ok (target, pushed) g') :
    g.Extends g' (g.naming.receiverCode object) 0 ∧ target = g.naming.target object name ∧
      pushed = g.naming.receiverCount object := by
  cases object with
  | none =>
    obtain ⟨_, _, h₁, k₁⟩ := bind_eq_ok h
    have he := emit_eq_ok h₁
    cases k₁
    exact ⟨he, congrArg (· ++ "." ++ name.name) he.className, rfl⟩
  | some x =>
    obtain ⟨found, _, hl, k₁⟩ := bind_eq_ok h
    obtain ⟨rfl, hv⟩ := lookup_eq_ok hl
    simp only [Naming.receiverCode, Naming.target, Naming.receiverCount, Naming.pushCode, hv]
    cases found with
    | none =>
      cases k₁
      exact ⟨.refl g, rfl, rfl⟩
    | some v =>
      obtain ⟨_, _, h₁, k₂⟩ := bind_eq_ok k₁
      cases k₂
      exact ⟨emit_eq_ok h₁, rfl, rfl⟩

end Generation

open Generation

/-! ### Expressions -/

mutual

theorem Term.generate_eq_ok {g g' : Generator} :
    ∀ t : Term, t.generate g = .ok () g' → t.Generable g.naming ∧ g.Extends g' (t.code g.naming) 0
  | .literal value, h => by
    rw [Term.generate] at h
    rw [Term.code]
    exact literal_eq_ok h
  | .var x, h => by
    rw [Term.generate] at h
    rw [Term.code, Term.Generable]
    obtain ⟨v, _, hr, k₁⟩ := bind_eq_ok h
    obtain ⟨rfl, hv⟩ := resolve_eq_ok hr
    exact ⟨Option.isSome_of_eq_some hv, pushVariable_eq_ok hv k₁⟩
  | .element array subscript, h => by
    rw [Term.generate] at h
    rw [Term.code, Term.Generable]
    obtain ⟨v, _, hr, k₁⟩ := bind_eq_ok h
    obtain ⟨rfl, hv⟩ := resolve_eq_ok hr
    obtain ⟨_, _, h₁, k₂⟩ := bind_eq_ok k₁
    obtain ⟨_, _, h₂, k₃⟩ := bind_eq_ok k₂
    obtain ⟨_, _, h₃, k₄⟩ := bind_eq_ok k₃
    obtain ⟨_, _, h₄, k₅⟩ := bind_eq_ok k₄
    obtain ⟨hsub, haddress⟩ := (pushVariable_eq_ok hv h₁).andThen (subscript.Generable ·)
      (fun names _ => subscript.code names) (subscript.generate_eq_ok h₂)
    refine ⟨⟨Option.isSome_of_eq_some hv, hsub⟩, ?_⟩
    exact haddress.trans (((emit_eq_ok h₃).trans (emit_eq_ok h₄)).trans (emit_eq_ok k₅))
  | .call call, h => by
    rw [Term.generate] at h
    rw [Term.code, Term.Generable]
    exact call.generate_eq_ok h
  | .paren inner, h => by
    rw [Term.generate] at h
    rw [Term.code, Term.Generable]
    exact inner.generate_eq_ok h
  | .unary op operand, h => by
    rw [Term.generate] at h
    rw [Term.code, Term.Generable]
    obtain ⟨_, _, h₁, k₁⟩ := bind_eq_ok h
    obtain ⟨hoperand, hcode⟩ := operand.generate_eq_ok h₁
    exact ⟨hoperand, hcode.trans (emit_eq_ok k₁)⟩

theorem Expr.generate_eq_ok {g g' : Generator} :
    ∀ e : Expr, e.generate g = .ok () g' → e.Generable g.naming ∧ g.Extends g' (e.code g.naming) 0
  | .mk head tail, h => by
    rw [Expr.generate] at h
    rw [Expr.code, Expr.Generable]
    obtain ⟨_, _, h₁, k₁⟩ := bind_eq_ok h
    obtain ⟨hhead, hcode⟩ := head.generate_eq_ok h₁
    obtain ⟨htail, hall⟩ := hcode.andThen (OperandsGenerable · tail)
      (fun names _ => operandsCode names tail) (generateOperands_eq_ok tail k₁)
    exact ⟨⟨hhead, htail⟩, hall⟩

theorem generateOperands_eq_ok {g g' : Generator} :
    ∀ operands : List Operand, generateOperands operands g = .ok () g' →
      OperandsGenerable g.naming operands ∧ g.Extends g' (operandsCode g.naming operands) 0
  | [], h => by
    rw [generateOperands] at h
    cases h
    exact ⟨trivial, .refl g⟩
  | .mk op term :: rest, h => by
    rw [generateOperands] at h
    rw [operandsCode, OperandsGenerable]
    obtain ⟨_, _, h₁, k₁⟩ := bind_eq_ok h
    obtain ⟨_, _, h₂, k₂⟩ := bind_eq_ok k₁
    obtain ⟨hterm, hcode⟩ := term.generate_eq_ok h₁
    have hrest := (emit_eq_ok h₂).andThen (OperandsGenerable · rest)
      (fun names _ => operandsCode names rest) (generateOperands_eq_ok rest k₂)
    obtain ⟨hoperands, hall⟩ := hcode.andThen (OperandsGenerable · rest)
      (fun names _ => Generation.binaryCommand op :: operandsCode names rest) hrest
    exact ⟨⟨hterm, hoperands⟩, hall⟩

theorem Call.generate_eq_ok {g g' : Generator} :
    ∀ call : Call, call.generate g = .ok () g' → call.Generable g.naming ∧
      g.Extends g' (call.code g.naming) 0
  | .mk object name paren args, h => by
    rw [Call.generate] at h
    rw [Call.code, Call.Generable]
    obtain ⟨⟨target, pushed⟩, _, h₁, k₁⟩ := bind_eq_ok h
    obtain ⟨_, _, h₂, k₂⟩ := bind_eq_ok k₁
    obtain ⟨count, _, h₃, k₃⟩ := bind_eq_ok k₂
    obtain ⟨hobject, rfl, rfl⟩ := receiver_eq_ok h₁
    obtain ⟨rfl, rfl, hlimit⟩ := counted_eq_ok h₃
    obtain ⟨hargs, hcode⟩ := hobject.andThen (ArgsGenerable · args)
      (fun names _ => argsCode names args) (generateArgs_eq_ok args h₂)
    exact ⟨⟨hargs, hlimit⟩, hcode.trans (emit_eq_ok k₃)⟩

theorem generateArgs_eq_ok {g g' : Generator} :
    ∀ args : List Expr, generateArgs args g = .ok () g' →
      ArgsGenerable g.naming args ∧ g.Extends g' (argsCode g.naming args) 0
  | [], h => by
    rw [generateArgs] at h
    cases h
    exact ⟨trivial, .refl g⟩
  | arg :: rest, h => by
    rw [generateArgs] at h
    rw [argsCode, ArgsGenerable]
    obtain ⟨_, _, h₁, k₁⟩ := bind_eq_ok h
    obtain ⟨harg, hcode⟩ := arg.generate_eq_ok h₁
    obtain ⟨hrest, hall⟩ := hcode.andThen (ArgsGenerable · rest)
      (fun names _ => argsCode names rest) (generateArgs_eq_ok rest k₁)
    exact ⟨⟨harg, hrest⟩, hall⟩

end

/-! ### Statements -/

section
variable {g g₁ g₂ g₃ : Generator} {condition value : Expr} {body alternative : List Statement}

/-- What a statement that generates code appends. -/
def Statement.Appends (s : Statement) (g g' : Generator) : Prop :=
  s.Generable g.naming ∧ g.Extends g' (s.code g.naming g.labels) s.labels

/-- Statements append their code whenever they generate some. -/
def AllAppend (body : List Statement) : Prop :=
  ∀ {g g' : Generator}, generateStatements body g = .ok () g' →
    AllGenerable g.naming body ∧
      g.Extends g' (statementsCode g.naming g.labels body) (labelsOf body)

/-- A condition and the jump over what depends on it. -/
theorem test_eq_ok {name : String} (h₁ : condition.generate g = .ok () g₁)
    (h₂ : emit (.arith .not) g₁ = .ok () g₂) (h₃ : emit (.ifGoto name) g₂ = .ok () g₃) :
    condition.Generable g.naming ∧
      g.Extends g₃ (condition.code g.naming ++ [.arith .not, .ifGoto name]) 0 := by
  obtain ⟨hcondition, hcode⟩ := condition.generate_eq_ok h₁
  exact ⟨hcondition, hcode.trans ((emit_eq_ok h₂).trans (emit_eq_ok h₃))⟩

theorem assignElement_appends {array : Ident} {subscript : Expr}
    (h : (Statement.assignElement array subscript value).generate g = .ok () g₁) :
    (Statement.assignElement array subscript value).Appends g g₁ := by
  rw [Statement.generate] at h
  rw [Statement.Appends, Statement.code, Statement.Generable]
  obtain ⟨v, _, hr, k₁⟩ := bind_eq_ok h
  obtain ⟨rfl, hv⟩ := resolve_eq_ok hr
  obtain ⟨_, _, h₁, k₂⟩ := bind_eq_ok k₁
  obtain ⟨_, _, h₂, k₃⟩ := bind_eq_ok k₂
  obtain ⟨_, _, h₃, k₄⟩ := bind_eq_ok k₃
  obtain ⟨_, _, h₄, k₅⟩ := bind_eq_ok k₄
  obtain ⟨_, _, h₅, k₆⟩ := bind_eq_ok k₅
  obtain ⟨_, _, h₆, k₇⟩ := bind_eq_ok k₆
  obtain ⟨_, _, h₇, k₈⟩ := bind_eq_ok k₇
  obtain ⟨hsub, haddress⟩ := (pushVariable_eq_ok hv h₁).andThen (subscript.Generable ·)
    (fun names _ => subscript.code names) (subscript.generate_eq_ok h₂)
  obtain ⟨hvalue, hcode⟩ := (haddress.trans (emit_eq_ok h₃)).andThen (value.Generable ·)
    (fun names _ => value.code names) (value.generate_eq_ok h₄)
  refine ⟨⟨Option.isSome_of_eq_some hv, hsub, hvalue⟩, ?_⟩
  exact hcode.trans
    ((((emit_eq_ok h₅).trans (emit_eq_ok h₆)).trans (emit_eq_ok h₇)).trans (emit_eq_ok k₈))

theorem ifThen_appends (hbody : AllAppend body)
    (h : (Statement.ifThen condition body).generate g = .ok () g₁) :
    (Statement.ifThen condition body).Appends g g₁ := by
  rw [Statement.generate] at h
  rw [Statement.Appends, Statement.code, Statement.labels, Statement.Generable]
  obtain ⟨n, _, hn, k₁⟩ := bind_eq_ok h
  obtain ⟨rfl, hfresh⟩ := freshLabel_eq_ok hn
  obtain ⟨_, _, h₁, k₂⟩ := bind_eq_ok k₁
  obtain ⟨_, _, h₂, k₃⟩ := bind_eq_ok k₂
  obtain ⟨_, _, h₃, k₄⟩ := bind_eq_ok k₃
  obtain ⟨_, _, h₄, k₅⟩ := bind_eq_ok k₄
  obtain ⟨hcondition, htest⟩ := hfresh.andThen (condition.Generable ·)
    (fun names _ => condition.code names ++ [.arith .not, .ifGoto (ifEnd g.labels)])
    (test_eq_ok h₁ h₂ h₃)
  obtain ⟨hgenerable, hblock⟩ := htest.andThen (AllGenerable · body)
    (fun names n => statementsCode names n body) (hbody h₄)
  exact ⟨⟨hcondition, hgenerable⟩, hblock.trans (emit_eq_ok k₅)⟩

theorem ifElse_appends (hbody : AllAppend body) (halternative : AllAppend alternative)
    (h : (Statement.ifElse condition body alternative).generate g = .ok () g₁) :
    (Statement.ifElse condition body alternative).Appends g g₁ := by
  rw [Statement.generate] at h
  rw [Statement.Appends, Statement.code, Statement.labels, Statement.Generable]
  obtain ⟨n, _, hn, k₁⟩ := bind_eq_ok h
  obtain ⟨rfl, hfresh⟩ := freshLabel_eq_ok hn
  obtain ⟨_, _, h₁, k₂⟩ := bind_eq_ok k₁
  obtain ⟨_, _, h₂, k₃⟩ := bind_eq_ok k₂
  obtain ⟨_, _, h₃, k₄⟩ := bind_eq_ok k₃
  obtain ⟨_, _, h₄, k₅⟩ := bind_eq_ok k₄
  obtain ⟨_, _, h₅, k₆⟩ := bind_eq_ok k₅
  obtain ⟨_, _, h₆, k₇⟩ := bind_eq_ok k₆
  obtain ⟨_, _, h₇, k₈⟩ := bind_eq_ok k₇
  obtain ⟨hcondition, htest⟩ := hfresh.andThen (condition.Generable ·)
    (fun names _ => condition.code names ++ [.arith .not, .ifGoto (ifElse g.labels)])
    (test_eq_ok h₁ h₂ h₃)
  obtain ⟨hgenerable, hblock⟩ := htest.andThen (AllGenerable · body)
    (fun names n => statementsCode names n body) (hbody h₄)
  have hjump := hblock.trans ((emit_eq_ok h₅).trans (emit_eq_ok h₆))
  obtain ⟨helse, hall⟩ := hjump.andThen (AllGenerable · alternative)
    (fun names n => statementsCode names n alternative) (halternative h₇)
  exact ⟨⟨hcondition, hgenerable, helse⟩, hall.trans (emit_eq_ok k₈)⟩

theorem while_appends (hbody : AllAppend body)
    (h : (Statement.while condition body).generate g = .ok () g₁) :
    (Statement.while condition body).Appends g g₁ := by
  rw [Statement.generate] at h
  rw [Statement.Appends, Statement.code, Statement.labels, Statement.Generable]
  obtain ⟨n, _, hn, k₁⟩ := bind_eq_ok h
  obtain ⟨rfl, hfresh⟩ := freshLabel_eq_ok hn
  obtain ⟨_, _, h₁, k₂⟩ := bind_eq_ok k₁
  obtain ⟨_, _, h₂, k₃⟩ := bind_eq_ok k₂
  obtain ⟨_, _, h₃, k₄⟩ := bind_eq_ok k₃
  obtain ⟨_, _, h₄, k₅⟩ := bind_eq_ok k₄
  obtain ⟨_, _, h₅, k₆⟩ := bind_eq_ok k₅
  obtain ⟨_, _, h₆, k₇⟩ := bind_eq_ok k₆
  obtain ⟨hcondition, htest⟩ := (hfresh.trans (emit_eq_ok h₁)).andThen (condition.Generable ·)
    (fun names _ => condition.code names ++ [.arith .not, .ifGoto (whileEnd g.labels)])
    (test_eq_ok h₂ h₃ h₄)
  obtain ⟨hgenerable, hblock⟩ := htest.andThen (AllGenerable · body)
    (fun names n => statementsCode names n body) (hbody h₅)
  exact ⟨⟨hcondition, hgenerable⟩, hblock.trans ((emit_eq_ok h₆).trans (emit_eq_ok k₇))⟩

end

mutual

-- The forms of many steps are the lemmas above; those of a few are seen to in place.
theorem Statement.generate_eq_ok {g g' : Generator} :
    ∀ s : Statement, s.generate g = .ok () g' →
      s.Generable g.naming ∧ g.Extends g' (s.code g.naming g.labels) s.labels
  | .assign x value, h => by
    rw [Statement.generate] at h
    rw [Statement.code, Statement.Generable]
    obtain ⟨v, _, hr, k₁⟩ := bind_eq_ok h
    obtain ⟨rfl, hv⟩ := resolve_eq_ok hr
    obtain ⟨_, _, h₁, k₂⟩ := bind_eq_ok k₁
    obtain ⟨hvalue, hcode⟩ := value.generate_eq_ok h₁
    refine ⟨⟨Option.isSome_of_eq_some hv, hvalue⟩, ?_⟩
    unfold Naming.popCode
    rw [hv]
    exact hcode.trans (emit_eq_ok k₂)
  | .assignElement _ _ _, h => assignElement_appends h
  | .ifThen _ body, h => ifThen_appends (fun h => generateStatements_eq_ok body h) h
  | .ifElse _ body alternative, h =>
    ifElse_appends (fun h => generateStatements_eq_ok body h)
      (fun h => generateStatements_eq_ok alternative h) h
  | .while _ body, h => while_appends (fun h => generateStatements_eq_ok body h) h
  | .do call, h => by
    rw [Statement.generate] at h
    rw [Statement.code, Statement.Generable]
    obtain ⟨_, _, h₁, k₁⟩ := bind_eq_ok h
    obtain ⟨hcall, hcode⟩ := call.generate_eq_ok h₁
    exact ⟨hcall, hcode.trans (emit_eq_ok k₁)⟩
  | .return (some value), h => by
    rw [Statement.generate] at h
    rw [Statement.code, Statement.Generable]
    obtain ⟨_, _, h₁, k₁⟩ := bind_eq_ok h
    obtain ⟨hvalue, hcode⟩ := value.generate_eq_ok h₁
    exact ⟨hvalue, hcode.trans (emit_eq_ok k₁)⟩
  | .return none, h => by
    rw [Statement.generate] at h
    rw [Statement.code, Statement.Generable]
    obtain ⟨_, _, h₁, k₁⟩ := bind_eq_ok h
    exact ⟨trivial, (emit_eq_ok h₁).trans (emit_eq_ok k₁)⟩

theorem generateStatements_eq_ok {g g' : Generator} :
    ∀ body : List Statement, generateStatements body g = .ok () g' →
      AllGenerable g.naming body ∧
        g.Extends g' (statementsCode g.naming g.labels body) (labelsOf body)
  | [], h => by
    rw [generateStatements] at h
    cases h
    exact ⟨trivial, .refl _⟩
  | s :: rest, h => by
    rw [generateStatements] at h
    rw [statementsCode, labelsOf, AllGenerable]
    obtain ⟨_, _, h₁, k₁⟩ := bind_eq_ok h
    obtain ⟨hs, hcode⟩ := s.generate_eq_ok h₁
    obtain ⟨hrest, hall⟩ := hcode.andThen (AllGenerable · rest)
      (fun names n => statementsCode names n rest) (generateStatements_eq_ok rest k₁)
    exact ⟨⟨hs, hrest⟩, hall⟩

end

/-! ### Declarations -/

/-- One generator is the other with variables declared, and nothing else has happened. -/
def Generator.Declares (g g' : Generator) (declarations : List Declaration) : Prop :=
  ∃ table, g.symbols.defineEach declarations = some table ∧ g' = { g with symbols := table }

theorem Generator.Declares.trans {g g₁ g₂ : Generator} {xs ys : List Declaration}
    (h : g.Declares g₁ xs) (h' : g₁.Declares g₂ ys) : g.Declares g₂ (xs ++ ys) := by
  obtain ⟨table, hx, rfl⟩ := h
  obtain ⟨table', hy, rfl⟩ := h'
  exact ⟨table', by rw [SymbolTable.defineEach_append, hx]; exact hy, rfl⟩

namespace Generation

variable {g g' : Generator}

theorem define_eq_ok {name type : String} {kind : VarKind} {span : Span}
    (h : define name type kind span g = .ok () g') : g.Declares g' [⟨name, type, kind⟩] := by
  obtain ⟨sink, symbols, className, labels⟩ := g
  simp only [define] at h
  split at h
  · next v table hd =>
    cases h
    refine ⟨table, ?_, rfl⟩
    simp only [SymbolTable.defineEach, hd]
  · cases h

theorem defineAll_eq_ok {type : String} {kind : VarKind} {names : List Ident}
    (h : defineAll type kind names g = .ok () g') :
    g.Declares g' (names.map fun x => ⟨x.name, type, kind⟩) := by
  induction names generalizing g with
  | nil =>
    cases h
    exact ⟨_, rfl, rfl⟩
  | cons x names ih =>
    obtain ⟨_, _, h₁, k₁⟩ := bind_eq_ok h
    exact (define_eq_ok h₁).trans (ih k₁)

theorem defineParameters_eq_ok {parameters : List Parameter}
    (h : defineParameters parameters g = .ok () g') :
    g.Declares g' (parameters.map fun p => ⟨p.name.name, p.type.name, .argument⟩) := by
  induction parameters generalizing g with
  | nil =>
    cases h
    exact ⟨_, rfl, rfl⟩
  | cons p parameters ih =>
    obtain ⟨_, _, h₁, k₁⟩ := bind_eq_ok h
    exact (define_eq_ok h₁).trans (ih k₁)

theorem defineLocals_eq_ok {locals : List VarDec} (h : defineLocals locals g = .ok () g') :
    g.Declares g' (locals.flatMap fun d => d.names.map fun x => ⟨x.name, d.type.name, .local⟩) := by
  induction locals generalizing g with
  | nil =>
    cases h
    exact ⟨_, rfl, rfl⟩
  | cons d locals ih =>
    obtain ⟨_, _, h₁, k₁⟩ := bind_eq_ok h
    exact (defineAll_eq_ok h₁).trans (ih k₁)

theorem defineClassVars_eq_ok {vars : List ClassVarDec} (h : defineClassVars vars g = .ok () g') :
    g.Declares g' (vars.flatMap fun d => d.names.map fun x => ⟨x.name, d.type.name,
      classVarKind d.kind⟩) := by
  induction vars generalizing g with
  | nil =>
    cases h
    exact ⟨_, rfl, rfl⟩
  | cons d vars ih =>
    obtain ⟨_, _, h₁, k₁⟩ := bind_eq_ok h
    exact (defineAll_eq_ok h₁).trans (ih k₁)

end Generation

/-- The generator with the scope of the subroutine emptied. -/
def Generator.reset (g : Generator) : Generator := { g with symbols := g.symbols.reset }

theorem Subroutine.declare_eq_ok {s : Subroutine} {g g' : Generator} (h : s.declare g = .ok () g') :
    g.reset.Declares g' (s.declarations g.className) := by
  obtain ⟨_, g₁, hreset, k₁⟩ := bind_eq_ok h
  have hg₁ : g₁ = g.reset := by
    cases hreset
    rfl
  subst hg₁
  have hvariables {g₂ : Generator}
      (k : (do defineParameters s.parameters; defineLocals s.locals) g₂ = .ok () g') :
      g₂.Declares g' (s.parameters.map (fun p => ⟨p.name.name, p.type.name, .argument⟩)
        ++ s.locals.flatMap fun d => d.names.map fun x => ⟨x.name, d.type.name, .local⟩) := by
    obtain ⟨_, g₃, hparameters, k'⟩ := bind_eq_ok k
    exact (defineParameters_eq_ok hparameters).trans (defineLocals_eq_ok k')
  unfold Subroutine.declarations
  rw [List.append_assoc]
  dsimp only at k₁
  split at k₁
  · next hkind =>
    obtain ⟨g₀, _, hget, k₂⟩ := bind_eq_ok k₁
    cases hget
    obtain ⟨_, g₂, hthis, k₃⟩ := bind_eq_ok k₂
    rw [if_pos hkind]
    exact (define_eq_ok hthis).trans (hvariables k₃)
  · next hkind =>
    rw [if_neg hkind]
    exact hvariables k₁

/-! ### Subroutines and classes -/

theorem SubroutineKind.setup_eq_ok {kind : SubroutineKind} {g g' : Generator}
    (h : objectSetup kind g = .ok () g') :
    g.Extends g' (kind.setupCode (g.symbols.count .field)) 0 := by
  cases kind with
  | function =>
    cases h
    exact .refl _
  | constructor =>
    obtain ⟨w, g₁, hw, k₁⟩ := bind_eq_ok h
    obtain ⟨_, _, h₁, k₂⟩ := bind_eq_ok k₁
    obtain ⟨_, _, h₂, k₃⟩ := bind_eq_ok k₂
    cases hw
    exact (emit_eq_ok h₁).trans ((emit_eq_ok h₂).trans (emit_eq_ok k₃))
  | method =>
    obtain ⟨_, _, h₁, k₁⟩ := bind_eq_ok h
    exact (emit_eq_ok h₁).trans (emit_eq_ok k₁)

section
variable {c : Class} {outer classScope : Scope}

/-- A generator inside a class, the variables of which are declared in front of `outer`. -/
structure Generator.Inside (g : Generator) (c : Class) (outer : Scope) : Prop where
  className : g.className = c.name.name
  classScope : outer.defineEach c.declarations = some g.symbols.ofClass

theorem Generator.Inside.count_field {g : Generator} (hg : g.Inside c outer) :
    g.symbols.count .field = c.fieldCount outer := Scope.count_of_defineEach hg.classScope .field

/-- The variables of a subroutine are defined in a scope of their own. -/
theorem Subroutine.scope_of_declare {s : Subroutine} {g g' : Generator} (hg : g.Inside c outer)
    (h : s.declare g = .ok () g') :
    ∃ scope, Scope.empty.defineEach (s.declarations c.name.name) = some scope ∧
      g' = { g with symbols := { g.symbols with ofSubroutine := scope } } := by
  obtain ⟨table, htable, rfl⟩ := s.declare_eq_ok h
  rw [hg.className,
    SymbolTable.defineEach_of_not_ofClass fun _ => Subroutine.ofClass_of_mem_declarations]
    at htable
  obtain ⟨scope, hscope, rfl⟩ := Option.map_eq_some_iff.mp htable
  exact ⟨scope, hscope, rfl⟩

/-- What a generator knows once the variables of a subroutine are declared. -/
theorem Subroutine.naming_of_declare {s : Subroutine} {g g' : Generator} (hg : g.Inside c outer)
    (h : s.declare g = .ok () g') :
    g'.Inside c outer ∧ g'.naming = s.naming c outer ∧ g'.symbols.count .local = s.localCount ∧
      g'.sink = g.sink ∧ g'.labels = g.labels := by
  obtain ⟨scope, hscope, rfl⟩ := s.scope_of_declare hg h
  refine ⟨⟨hg.className, hg.classScope⟩, ?_, ?_, rfl, rfl⟩
  · unfold Generator.naming
    dsimp only
    rw [hg.className, SymbolTable.lookup_of_declared hg.classScope hscope]
    rfl
  · show scope.count .local = _
    rw [Scope.count_of_defineEach hscope, Subroutine.countOfKind_local, Scope.count_empty,
      Nat.zero_add]

/-- **A subroutine is generated as its code.** -/
theorem Subroutine.generate_eq_ok {s : Subroutine} {g g' : Generator} (hg : g.Inside c outer)
    (h : s.generate g = .ok () g') :
    AllGenerable (s.naming c outer) s.body ∧ g'.Inside c outer ∧
      g'.labels = g.labels + labelsOf s.body ∧
      g'.sink.commands.toList = g.sink.commands.toList ++ s.code c outer g.labels := by
  obtain ⟨_, g₁, hdeclare, k₁⟩ := bind_eq_ok h
  obtain ⟨hinside, hnaming, hlocal, hsink, hlabels⟩ := s.naming_of_declare hg hdeclare
  obtain ⟨name, _, hname, k₂⟩ := bind_eq_ok k₁
  cases hname
  obtain ⟨locals, _, hlocals, k₃⟩ := bind_eq_ok k₂
  cases hlocals
  obtain ⟨_, _, hfunction, k₄⟩ := bind_eq_ok k₃
  obtain ⟨_, _, hsetup, k₅⟩ := bind_eq_ok k₄
  have hhead := emit_eq_ok hfunction
  have hinit := SubroutineKind.setup_eq_ok hsetup
  rw [hhead.symbols, hinside.count_field] at hinit
  rw [hlocal, hinside.className] at hhead
  obtain ⟨hbody, hall⟩ := (hhead.trans hinit).andThen (AllGenerable · s.body)
    (fun names n => statementsCode names n s.body) (generateStatements_eq_ok s.body k₅)
  rw [hnaming] at hbody
  rw [hnaming, hlabels] at hall
  refine ⟨hbody, ⟨hall.className.trans hinside.className, ?_⟩, ?_, ?_⟩
  · rw [hall.symbols]
    exact hinside.classScope
  · rw [hall.labels, hlabels, Nat.zero_add]
  · rw [hall.commands, hsink]
    rfl

theorem generateSubroutines_eq_ok {subroutines : List Subroutine} {g g' : Generator}
    (hg : g.Inside c outer) (h : generateSubroutines subroutines g = .ok () g') :
    (∀ s ∈ subroutines, AllGenerable (s.naming c outer) s.body) ∧
      g'.sink.commands.toList =
        g.sink.commands.toList ++ (subroutineCodes c outer g.labels subroutines).flatten := by
  induction subroutines generalizing g with
  | nil =>
    cases h
    exact ⟨fun _ hs => absurd hs List.not_mem_nil, (List.append_nil _).symm⟩
  | cons s rest ih =>
    obtain ⟨_, g₁, h₁, k₁⟩ := bind_eq_ok h
    obtain ⟨hbody, hinside, hlabels, hcommands⟩ := s.generate_eq_ok hg h₁
    obtain ⟨hbodies, hrest⟩ := ih hinside k₁
    refine ⟨List.forall_mem_cons.mpr ⟨hbody, hbodies⟩, ?_⟩
    rw [hrest, hcommands, hlabels, subroutineCodes, List.flatten_cons, List.append_assoc]

/-- The variables of each subroutine are given indices. -/
theorem scopes_of_generateSubroutines {subroutines : List Subroutine} {g g' : Generator}
    (hg : g.Inside c outer) (h : generateSubroutines subroutines g = .ok () g') :
    ∀ s ∈ subroutines, ∃ scope, Scope.empty.defineEach (s.declarations c.name.name) =
      some scope := by
  induction subroutines generalizing g with
  | nil => exact List.forall_mem_nil _
  | cons s rest ih =>
    obtain ⟨_, g₁, h₁, k₁⟩ := bind_eq_ok h
    obtain ⟨-, hinside, -, -⟩ := s.generate_eq_ok hg h₁
    obtain ⟨_, _, hdeclare, -⟩ := bind_eq_ok h₁
    obtain ⟨scope, hscope, -⟩ := s.scope_of_declare hg hdeclare
    exact List.forall_mem_cons.mpr ⟨⟨scope, hscope⟩, ih hinside k₁⟩

/-- A compilation declares the variables of the class first, and generates the subroutines inside
it. -/
theorem Class.inside_of_compile {g g' : Generator} (h : g.compile c = (.ok (), g')) :
    ∃ g₁ : Generator, g₁.Inside c g.symbols.ofClass ∧ g₁.sink = g.sink ∧ g₁.labels = g.labels ∧
      generateSubroutines c.subroutines g₁ = .ok () g' := by
  unfold Generator.compile at h
  split at h
  · next g₀ hrun =>
    cases h
    change c.generate g = .ok () g' at hrun
    obtain ⟨_, g₁, hclass, k₁⟩ := bind_eq_ok hrun
    cases hclass
    obtain ⟨_, g₂, hvars, k₂⟩ := bind_eq_ok k₁
    obtain ⟨table, htable, rfl⟩ := defineClassVars_eq_ok hvars
    change g.symbols.defineEach c.declarations = _ at htable
    rw [SymbolTable.defineEach_of_ofClass fun _ => Class.ofClass_of_mem_declarations] at htable
    obtain ⟨scope, hscope, rfl⟩ := Option.map_eq_some_iff.mp htable
    have hinside : Generator.Inside
        { g with className := c.name.name, symbols := { g.symbols with ofClass := scope } } c
        g.symbols.ofClass :=
      ⟨rfl, hscope⟩
    exact ⟨_, hinside, rfl, rfl, k₂⟩
  · cases h

/-- **A class is generated as the codes of its subroutines.**  What was in scope of the class before
is still there, behind the declarations of the class. -/
theorem Class.commands_of_compile {g g' : Generator} (h : g.compile c = (.ok (), g')) :
    (∀ s ∈ c.subroutines, AllGenerable (s.naming c g.symbols.ofClass) s.body) ∧
      g'.sink.commands.toList = g.sink.commands.toList
        ++ (subroutineCodes c g.symbols.ofClass g.labels c.subroutines).flatten := by
  obtain ⟨g₁, hinside, hsink, hlabels, hall⟩ := Class.inside_of_compile h
  rw [← hsink, ← hlabels]
  exact generateSubroutines_eq_ok hinside hall

/-- The variables of a class that compiles have indices, and so do those of its subroutines. -/
theorem Class.scopes_of_compile {g g' : Generator} (h : g.compile c = (.ok (), g')) :
    (∃ scope, g.symbols.ofClass.defineEach c.declarations = some scope) ∧
      ∀ s ∈ c.subroutines, ∃ scope, Scope.empty.defineEach (s.declarations c.name.name) =
        some scope := by
  obtain ⟨g₁, hinside, -, -, hall⟩ := Class.inside_of_compile h
  exact ⟨⟨_, hinside.classScope⟩, scopes_of_generateSubroutines hinside hall⟩

/-- The fields of a class that compiles have indices. -/
theorem Class.fieldCount_le_of_compile {g g' : Generator} (h : g.compile c = (.ok (), g'))
    (hbefore : g.symbols.ofClass.count .field ≤ Word.maxNat) :
    c.fieldCount g.symbols.ofClass ≤ Word.maxNat := by
  obtain ⟨⟨scope, hscope⟩, -⟩ := Class.scopes_of_compile h
  have hcount := Scope.count_of_defineEach hscope .field
  unfold Class.fieldCount
  rw [← hcount]
  exact Scope.count_le_of_defineEach hscope hbefore

end

end JackToolchain.Jack
