import JackToolchain.Jack.Parser
import JackToolchain.Proofs.Jack.Items
import JackToolchain.Proofs.Jack.Tokenization

/-!
# What the parser reads is well spelled

The parser takes names and numbers from tokens, and the tokens of a source are spelled as their
kinds say.  So all names in a tree are identifiers and all its integer constants are in range
(`spelled_of_parseUnit`).  A reader is described by what holds of its results as long as the tokens
in front of it are well spelled (`Reading.Yields`).
-/

namespace JackToolchain.Jack

/-! ### Trees -/

/-- The name is an identifier and no reserved word. -/
structure Ident.Spelled (x : Ident) : Prop where
  isIdentifier : IsIdentifier x.name.toList
  unreserved : ¬IsReserved x.name.toList

/-- The hidden argument of a method has a name that nobody can write. -/
theorem Ident.Spelled.ne_this {x : Ident} (h : x.Spelled) : x.name ≠ "this" := fun hthis =>
  h.unreserved ⟨.this, by rw [hthis]; rfl⟩

/-- The name of a class is an identifier. -/
def TypeName.Spelled : TypeName → Prop
  | .named x => x.Spelled
  | .int | .char | .boolean => True

/-- An integer constant is in range. -/
def Literal.Spelled : Literal → Prop
  | .int value _ => value ≤ maxInt
  | .string .. | .true | .false | .null | .this => True

mutual

/-- The names in a term are identifiers, and its integer constants are in range. -/
def Term.Spelled : Term → Prop
  | .literal value => value.Spelled
  | .var x => x.Spelled
  | .element array subscript => array.Spelled ∧ subscript.Spelled
  | .call call => call.Spelled
  | .paren inner => inner.Spelled
  | .unary _ operand => operand.Spelled

/-- The names in an expression are identifiers, and its integer constants are in range. -/
def Expr.Spelled : Expr → Prop
  | .mk head tail => head.Spelled ∧ OperandsSpelled tail

/-- The names in operands are identifiers, and their integer constants are in range. -/
def OperandsSpelled : List Operand → Prop
  | [] => True
  | .mk _ term :: rest => term.Spelled ∧ OperandsSpelled rest

/-- The names in a call are identifiers, and its integer constants are in range. -/
def Call.Spelled : Call → Prop
  | .mk receiver name _ args => (∀ x ∈ receiver, x.Spelled) ∧ name.Spelled ∧ ArgsSpelled args

/-- The names in arguments are identifiers, and their integer constants are in range. -/
def ArgsSpelled : List Expr → Prop
  | [] => True
  | arg :: rest => arg.Spelled ∧ ArgsSpelled rest

end

mutual

/-- The names in a statement are identifiers, and its integer constants are in range. -/
def Statement.Spelled : Statement → Prop
  | .assign target value => target.Spelled ∧ value.Spelled
  | .assignElement array subscript value => array.Spelled ∧ subscript.Spelled ∧ value.Spelled
  | .ifThen condition body | .while condition body => condition.Spelled ∧ AllSpelled body
  | .ifElse condition body alternative =>
    condition.Spelled ∧ AllSpelled body ∧ AllSpelled alternative
  | .do call => call.Spelled
  | .return (some value) => value.Spelled
  | .return none => True

/-- The names in statements are identifiers, and their integer constants are in range. -/
def AllSpelled : List Statement → Prop
  | [] => True
  | s :: rest => s.Spelled ∧ AllSpelled rest

end

/-- The names in a subroutine are identifiers, and its integer constants are in range. -/
structure Subroutine.Spelled (s : Subroutine) : Prop where
  name : s.name.Spelled
  parameters : ∀ p ∈ s.parameters, p.type.Spelled ∧ p.name.Spelled
  locals : ∀ d ∈ s.locals, d.type.Spelled ∧ ∀ x ∈ d.names, x.Spelled
  body : AllSpelled s.body

/-- The names in a class are identifiers, and its integer constants are in range. -/
structure Class.Spelled (c : Class) : Prop where
  name : c.name.Spelled
  classVars : ∀ d ∈ c.classVars, d.type.Spelled ∧ ∀ x ∈ d.names, x.Spelled
  subroutines : ∀ s ∈ c.subroutines, s.Spelled

theorem operandsSpelled_nil : OperandsSpelled [] := by
  rw [OperandsSpelled]
  trivial

theorem operandsSpelled_iff {operands : List Operand} :
    OperandsSpelled operands ↔ ∀ op t, .mk op t ∈ operands → t.Spelled := by
  induction operands with
  | nil => simp [OperandsSpelled]
  | cons operand operands ih =>
    obtain ⟨op, t⟩ := operand
    rw [OperandsSpelled, ih]
    constructor
    · rintro ⟨ht, hrest⟩ op' t' hmem
      rcases List.mem_cons.mp hmem with heq | hmem
      · cases heq
        exact ht
      · exact hrest op' t' hmem
    · intro h
      exact ⟨h op t List.mem_cons_self, fun op' t' hmem => h op' t' (List.mem_cons_of_mem _ hmem)⟩

theorem argsSpelled_iff {args : List Expr} : ArgsSpelled args ↔ ∀ arg ∈ args, arg.Spelled := by
  induction args with
  | nil => simp [ArgsSpelled]
  | cons arg args ih => rw [ArgsSpelled, ih, List.forall_mem_cons]

theorem allSpelled_iff {body : List Statement} : AllSpelled body ↔ ∀ s ∈ body, s.Spelled := by
  induction body with
  | nil => simp [AllSpelled]
  | cons s body ih => rw [AllSpelled, ih, List.forall_mem_cons]

/-! ### Readers -/

/-- The tokens that are left are spelled as their kinds say. -/
def TokenStream.Spelled (s : TokenStream) : Prop := ∀ t, .ok t ∈ s.items → t.KindByText

theorem TokenStream.Spelled.of_items {s s' : TokenStream} (hs : s.Spelled)
    (h : s'.items = s.items) : s'.Spelled := by
  unfold Spelled
  rwa [h]

/-- What is read from well-spelled tokens has a property, and the tokens behind it are well
spelled. -/
def Reading.Yields {α : Type} (p : Reading α) (P : α → Prop) : Prop :=
  ∀ (s : TokenStream) (a : α) (s' : TokenStream), s.Spelled → p s = .ok a s' → P a ∧ s'.Spelled

namespace Reading

variable {α β : Type} {P : α → Prop} {Q : β → Prop}

theorem Yields.mono {p : Reading α} {P' : α → Prop} (h : p.Yields P) (hP : ∀ a, P a → P' a) :
    p.Yields P' := by
  intro s a s' hs hr
  obtain ⟨ha, hs'⟩ := h s a s' hs hr
  exact ⟨hP a ha, hs'⟩

theorem Yields.pure {a : α} (h : P a) : Yields (Pure.pure a) P := by
  intro s a' s' hs hr
  cases hr
  exact ⟨h, hs⟩

/-- Readers in a row. -/
theorem Yields.bind {p : Reading α} {f : α → Reading β} (h : p.Yields P)
    (h' : ∀ a, P a → (f a).Yields Q) : (p >>= f).Yields Q := by
  intro s b s'' hs hr
  cases hp : p s with
  | error e s' =>
    rw [bind_of_error hp] at hr
    cases hr
  | ok a s' =>
    rw [bind_of_ok hp] at hr
    obtain ⟨ha, hs'⟩ := h s a s' hs hp
    exact h' a ha s' b s'' hs' hr

theorem Yields.map {p : Reading α} {f : α → β} (h : p.Yields fun a => Q (f a)) :
    (f <$> p).Yields Q := by
  intro s b s' hs hr
  replace hr : EStateM.map f p s = .ok b s' := hr
  unfold EStateM.map at hr
  cases hp : p s with
  | error e s₁ =>
    rw [hp] at hr
    cases hr
  | ok a s₁ =>
    rw [hp] at hr
    cases hr
    exact h s a _ hs hp

theorem Yields.discard {p : Reading α} (h : p.Yields P) :
    (Functor.discard p).Yields fun _ => True :=
  (h.mono fun _ _ => trivial).map

theorem yields_throw {e : SyntaxError} : (throw e : Reading α).Yields P := by
  intro s a s' _ hr
  cases hr

/-- The token in view. -/
theorem yields_peek : peek.Yields Token.KindByText := by
  intro s t s' hs hr
  rw [peek_eq] at hr
  obtain ⟨hview, rfl⟩ := ofItem_eq_ok hr
  exact ⟨hs t (List.mem_of_head? hview), hs.of_items s.items_looked⟩

theorem yields_peekKind : peekKind.Yields fun _ => True := yields_peek.bind fun _ _ => .pure trivial

theorem yields_ofItem (item : Option Item) : (ofItem item).Yields fun _ => True := by
  unfold ofItem
  split
  · exact .pure trivial
  · exact yields_throw
  · exact yields_throw

/-- A stream moves while none of its items is dropped. -/
theorem yields_modifyGet {f : TokenStream → α × TokenStream} (h : ∀ s, (f s).2.items = s.items) :
    (modifyGet f : Reading α).Yields fun _ => True := by
  intro s a s' hs hr
  cases hr
  exact ⟨trivial, hs.of_items (h s)⟩

theorem yields_peekSecond : peekSecond.Yields fun _ => True :=
  yields_peek.discard.bind fun _ _ => (yields_modifyGet TokenStream.items_peekItem).bind fun _ _ =>
    (yields_modifyGet TokenStream.items_resetPeek).bind fun _ _ => (yields_ofItem _).bind fun _ _ =>
      .pure trivial

theorem yields_next : next.Yields Token.KindByText := by
  intro s t s' hs hr
  rw [next_eq] at hr
  obtain ⟨hview, rfl⟩ := ofItem_eq_ok hr
  refine ⟨hs t (List.mem_of_head? hview), fun t' ht' => hs t' ?_⟩
  rw [TokenStream.items_advance_eq_tail] at ht'
  exact List.mem_of_mem_tail ht'

theorem yields_accept {kind : Kind} : (accept kind).Yields fun _ => True := by
  refine yields_peekKind.bind fun _ _ => ?_
  split
  · exact Yields.map (yields_next.mono fun _ _ => trivial)
  · exact .pure trivial

/-- A token of a given kind. -/
theorem yields_expect {kind : Kind} :
    (expect kind).Yields fun t => t.KindByText ∧ t.kind = kind := by
  intro s t s' hs hr
  unfold expect at hr
  -- A token is only taken if it has been in view, so what is known of it is known of what is taken.
  cases hitems : s.items with
  | nil =>
    rw [bind_of_error (peek_of_nil hitems)] at hr
    cases hr
  | cons item rest =>
    cases item with
    | error e =>
      rw [bind_of_error (peek_of_error hitems)] at hr
      cases hr
    | ok t₁ =>
      rw [bind_of_ok (peek_of_ok hitems)] at hr
      split at hr
      · next hkind =>
        have hlooked := s.items_looked
        have hnext := yields_next s.looked t s' (hs.of_items hlooked) hr
        rw [next_of_ok (hlooked.trans hitems)] at hr
        cases hr
        exact ⟨⟨hnext.1, hkind⟩, hnext.2⟩
      · cases hr

theorem yields_unexpected {expected : String} : (unexpected expected : Reading α).Yields P :=
  yields_peek.bind fun _ _ => yields_throw

theorem yields_exhausted : (exhausted : Reading α).Yields P := yields_throw

end Reading

/-! ### The readers of the parser -/

namespace Parse

open Reading

variable {α : Type} {P : α → Prop} {fuel : Nat}

theorem yields_ident : ident.Yields Ident.Spelled := by
  refine yields_expect.bind fun t ht => .pure ?_
  obtain ⟨hidentifier, hunreserved⟩ := ht.1.ident.mp ht.2
  exact ⟨hidentifier, hunreserved⟩

theorem yields_separated {item : Reading α} (h : item.Yields P) :
    (separated item fuel).Yields fun xs => ∀ x ∈ xs, P x := by
  have hfrom (done : List α) (hdone : ∀ x ∈ done, P x) :
      (separatedFrom item fuel done).Yields fun xs => ∀ x ∈ xs, P x := by
    induction fuel generalizing done with
    | zero => exact yields_exhausted
    | succ fuel ih =>
      refine h.bind fun x hx => yields_accept.bind fun comma _ => ?_
      have hcons : ∀ y ∈ x :: done, P y := List.forall_mem_cons.mpr ⟨hx, hdone⟩
      cases comma with
      | some => exact ih _ hcons
      | none => exact .pure fun y hy => hcons y (List.mem_reverse.mp hy)
  exact hfrom [] fun x hx => absurd hx List.not_mem_nil

theorem yields_many {begins : Kind → Bool} {item : Reading α} (h : item.Yields P) :
    (many begins item fuel).Yields fun xs => ∀ x ∈ xs, P x := by
  have hfrom (done : List α) (hdone : ∀ x ∈ done, P x) :
      (whileFrom begins item fuel done).Yields fun xs => ∀ x ∈ xs, P x := by
    induction fuel generalizing done with
    | zero => exact yields_exhausted
    | succ fuel ih =>
      refine yields_peekKind.bind fun k _ => ?_
      split
      · exact h.bind fun x hx => ih _ (List.forall_mem_cons.mpr ⟨hx, hdone⟩)
      · exact .pure fun y hy => hdone y (List.mem_reverse.mp hy)
  exact hfrom [] fun x hx => absurd hx List.not_mem_nil

theorem yields_typeName : typeName.Yields TypeName.Spelled := by
  refine yields_peekKind.bind fun k _ => ?_
  split
  · exact yields_next.discard.bind fun _ _ => .pure trivial
  · exact yields_next.discard.bind fun _ _ => .pure trivial
  · exact yields_next.discard.bind fun _ _ => .pure trivial
  · exact yields_ident.bind fun x hx => .pure hx
  · exact yields_unexpected

theorem yields_returnType : returnType.Yields fun _ => True := by
  refine yields_accept.bind fun void _ => ?_
  cases void with
  | some => exact .pure trivial
  | none => exact yields_typeName.bind fun _ _ => .pure trivial

theorem spelled_of_literalOf? {t : Token} {value : Literal} (ht : t.KindByText)
    (h : literalOf? t = some value) : value.Spelled := by
  unfold literalOf? at h
  split at h
  · next n hkind =>
    cases h
    exact ((ht.int n).mp hkind).2.2.2
  all_goals
    cases h
    try trivial

theorem yields_literal : literal.Yields Literal.Spelled := by
  refine yields_peek.bind fun t ht => ?_
  split
  · next value hvalue =>
    exact yields_next.discard.bind fun _ _ => .pure (spelled_of_literalOf? ht hvalue)
  · exact yields_unexpected

/-! ### Expressions -/

theorem yields_operandsFrom {term : Reading Term} (h : term.Yields Term.Spelled)
    {done : List Operand} (hdone : OperandsSpelled done) :
    (operandsFrom term fuel done).Yields OperandsSpelled := by
  induction fuel generalizing done with
  | zero => exact yields_exhausted
  | succ fuel ih =>
    refine yields_peekKind.bind fun k _ => ?_
    split
    · refine yields_next.discard.bind fun _ _ => h.bind fun t ht => ih ?_
      rw [OperandsSpelled]
      exact ⟨ht, hdone⟩
    · refine .pure (operandsSpelled_iff.mpr fun op t hmem => ?_)
      exact operandsSpelled_iff.mp hdone op t (List.mem_reverse.mp hmem)

theorem yields_exprOf {term : Reading Term} (h : term.Yields Term.Spelled) :
    (exprOf term fuel).Yields Expr.Spelled := by
  refine h.bind fun t ht => (yields_operandsFrom h operandsSpelled_nil).bind fun tail htail =>
    .pure ?_
  rw [Expr.Spelled]
  exact ⟨ht, htail⟩

section
variable {expr : Reading Expr}

theorem yields_parenOf (h : expr.Yields Expr.Spelled) : (parenOf expr).Yields Expr.Spelled :=
  yields_expect.discard.bind fun _ _ => h.bind fun _ he => yields_expect.discard.bind fun _ _ =>
    .pure he

theorem yields_subscriptOf (h : expr.Yields Expr.Spelled) :
    (subscriptOf expr).Yields Expr.Spelled :=
  yields_expect.discard.bind fun _ _ => h.bind fun _ he => yields_expect.discard.bind fun _ _ =>
    .pure he

theorem yields_argsOf (h : expr.Yields Expr.Spelled) : (argsOf expr fuel).Yields ArgsSpelled := by
  refine yields_peekKind.bind fun k _ => ?_
  split
  · exact .pure trivial
  · exact (yields_separated h).mono fun _ => argsSpelled_iff.mpr

theorem yields_callOf (h : expr.Yields Expr.Spelled) : (callOf expr fuel).Yields Call.Spelled := by
  refine yields_ident.bind fun first hfirst => yields_accept.bind fun dot _ => ?_
  -- Behind a dot the first name is the receiver, and the name of the subroutine follows.
  have hrest (receiver : Option Ident) (name : Ident) (hreceiver : ∀ x ∈ receiver, x.Spelled)
      (hname : name.Spelled) : (do
        let paren ← expect (.symbol .leftParen)
        let args ← argsOf expr fuel
        discard <| expect (.symbol .rightParen)
        return Call.mk receiver name paren.span args : Reading Call).Yields Call.Spelled := by
    refine yields_expect.bind fun paren _ => (yields_argsOf h).bind fun args hargs =>
      yields_expect.discard.bind fun _ _ => .pure ?_
    rw [Call.Spelled]
    exact ⟨hreceiver, hname, hargs⟩
  cases dot with
  | some =>
    refine yields_ident.bind fun name hname => hrest (some first) name ?_ hname
    rintro x ⟨⟩
    exact hfirst
  | none => exact hrest none first nofun hfirst

end

theorem yields_termAt : (termAt fuel).Yields Term.Spelled := by
  induction fuel with
  | zero => exact yields_exhausted
  | succ fuel ih =>
    have hexpr : (exprOf (termAt fuel) fuel).Yields Expr.Spelled := yields_exprOf ih
    have hliteral : (do return .literal (← literal) : Reading Term).Yields Term.Spelled := by
      refine yields_literal.bind fun value hvalue => .pure ?_
      rw [Term.Spelled]
      exact hvalue
    have hunary (op : UnaryOp) : (do
        discard next
        return .unary op (← termAt fuel) : Reading Term).Yields Term.Spelled := by
      refine yields_next.discard.bind fun _ _ => ih.bind fun t ht => .pure ?_
      rw [Term.Spelled]
      exact ht
    rw [termAt]
    refine yields_peekKind.bind fun k _ => ?_
    split
    · exact hliteral
    · exact hliteral
    · exact hliteral
    · exact hliteral
    · exact hliteral
    · exact hliteral
    · refine yields_peekSecond.bind fun second _ => ?_
      split
      · refine yields_ident.bind fun x hx => (yields_subscriptOf hexpr).bind fun e he => .pure ?_
        rw [Term.Spelled]
        exact ⟨hx, he⟩
      · refine (yields_callOf hexpr).bind fun call hcall => .pure ?_
        rw [Term.Spelled]
        exact hcall
      · refine (yields_callOf hexpr).bind fun call hcall => .pure ?_
        rw [Term.Spelled]
        exact hcall
      · refine yields_ident.bind fun x hx => .pure ?_
        rw [Term.Spelled]
        exact hx
    · refine (yields_parenOf hexpr).bind fun e he => .pure ?_
      rw [Term.Spelled]
      exact he
    · exact hunary .neg
    · exact hunary .not
    · exact yields_unexpected

theorem yields_exprAt : (exprAt fuel).Yields Expr.Spelled := yields_exprOf yields_termAt

/-! ### Statements -/

section
variable {expr : Reading Expr} {block : Reading (List Statement)}

theorem yields_blockOf {statement : Reading Statement} (h : statement.Yields Statement.Spelled) :
    (blockOf statement fuel).Yields AllSpelled := by
  refine yields_expect.discard.bind fun _ _ => (yields_many h).bind fun body hbody =>
    yields_expect.discard.bind fun _ _ => .pure ?_
  exact allSpelled_iff.mpr hbody

theorem yields_letOf (h : expr.Yields Expr.Spelled) : (letOf expr).Yields Statement.Spelled := by
  refine yields_expect.discard.bind fun _ _ => yields_ident.bind fun x hx =>
    yields_peekKind.bind fun k _ => ?_
  have hrest (make : Expr → Statement) (hmake : ∀ value, value.Spelled → (make value).Spelled) :
      (do
        discard <| expect (.symbol .equals)
        let value ← expr
        discard <| expect (.symbol .semicolon)
        return make value : Reading Statement).Yields Statement.Spelled :=
    yields_expect.discard.bind fun _ _ => h.bind fun value hvalue =>
      yields_expect.discard.bind fun _ _ => .pure (hmake value hvalue)
  have hnone : ∀ value, value.Spelled → (Statement.assign x value).Spelled := by
    intro value hvalue
    rw [Statement.Spelled]
    exact ⟨hx, hvalue⟩
  split
  · refine Yields.bind (P := fun subscript => ∀ e ∈ subscript, e.Spelled) (.map ?_)
      fun subscript hsubscript => ?_
    · refine (yields_subscriptOf h).mono fun e he => ?_
      rintro e' ⟨⟩
      exact he
    · cases subscript with
      | none => exact hrest (.assign x) hnone
      | some subscript =>
        refine hrest (.assignElement x subscript) fun value hvalue => ?_
        rw [Statement.Spelled]
        exact ⟨hx, hsubscript subscript rfl, hvalue⟩
  · exact hrest (.assign x) hnone

theorem yields_ifOf (h : expr.Yields Expr.Spelled) (hblock : block.Yields AllSpelled) :
    (ifOf expr block).Yields Statement.Spelled := by
  refine yields_expect.discard.bind fun _ _ => (yields_parenOf h).bind fun condition hcondition =>
    hblock.bind fun body hbody => yields_accept.bind fun alternative _ => ?_
  cases alternative with
  | some =>
    refine hblock.bind fun alternative halternative => .pure ?_
    rw [Statement.Spelled]
    exact ⟨hcondition, hbody, halternative⟩
  | none =>
    refine .pure ?_
    rw [Statement.Spelled]
    exact ⟨hcondition, hbody⟩

theorem yields_whileOf (h : expr.Yields Expr.Spelled) (hblock : block.Yields AllSpelled) :
    (whileOf expr block).Yields Statement.Spelled := by
  refine yields_expect.discard.bind fun _ _ => (yields_parenOf h).bind fun condition hcondition =>
    hblock.bind fun body hbody => .pure ?_
  rw [Statement.Spelled]
  exact ⟨hcondition, hbody⟩

theorem yields_doOf {call : Reading Call} (h : call.Yields Call.Spelled) :
    (doOf call).Yields Statement.Spelled := by
  refine yields_expect.discard.bind fun _ _ => h.bind fun call hcall =>
    yields_expect.discard.bind fun _ _ => .pure ?_
  rw [Statement.Spelled]
  exact hcall

theorem yields_returnOf (h : expr.Yields Expr.Spelled) :
    (returnOf expr).Yields Statement.Spelled := by
  refine yields_expect.discard.bind fun _ _ => yields_peekKind.bind fun k _ => ?_
  have hrest (value : Option Expr) (hvalue : ∀ e ∈ value, e.Spelled) :
      (do
        discard <| expect (.symbol .semicolon)
        return .return value : Reading Statement).Yields Statement.Spelled := by
    refine yields_expect.discard.bind fun _ _ => .pure ?_
    cases value with
    | some value =>
      rw [Statement.Spelled]
      exact hvalue value rfl
    | none => trivial
  split
  · exact hrest none nofun
  · refine Yields.bind (P := fun value => ∀ e ∈ value, e.Spelled) (.map ?_) hrest
    refine h.mono fun e he => ?_
    rintro e' ⟨⟩
    exact he

end

theorem yields_statementAt : (statementAt fuel).Yields Statement.Spelled := by
  induction fuel with
  | zero => exact yields_exhausted
  | succ fuel ih =>
    rw [statementAt]
    refine yields_peekKind.bind fun k _ => ?_
    split
    · exact yields_letOf yields_exprAt
    · exact yields_ifOf yields_exprAt (yields_blockOf ih)
    · exact yields_whileOf yields_exprAt (yields_blockOf ih)
    · exact yields_doOf (yields_callOf yields_exprAt)
    · exact yields_returnOf yields_exprAt
    · exact yields_unexpected

theorem yields_statementsAt : (statementsAt fuel).Yields AllSpelled :=
  (yields_many yields_statementAt).mono fun _ => allSpelled_iff.mpr

/-! ### Declarations -/

theorem yields_parameter : parameter.Yields fun p => p.type.Spelled ∧ p.name.Spelled :=
  yields_typeName.bind fun _ htype => yields_ident.bind fun _ hname => .pure ⟨htype, hname⟩

theorem yields_parametersAt :
    (parametersAt fuel).Yields fun ps => ∀ p ∈ ps, p.type.Spelled ∧ p.name.Spelled := by
  refine yields_peekKind.bind fun k _ => ?_
  split
  · exact .pure nofun
  · exact yields_separated yields_parameter

theorem yields_varDecAt :
    (varDecAt fuel).Yields fun d => d.type.Spelled ∧ ∀ x ∈ d.names, x.Spelled :=
  yields_expect.discard.bind fun _ _ => yields_typeName.bind fun _ htype =>
    (yields_separated yields_ident).bind
    fun _ hnames => yields_expect.discard.bind fun _ _ => .pure ⟨htype, hnames⟩

theorem yields_bodyAt : (bodyAt fuel).Yields fun body =>
    (∀ d ∈ body.1, d.type.Spelled ∧ ∀ x ∈ d.names, x.Spelled) ∧ AllSpelled body.2 :=
  yields_expect.discard.bind fun _ _ => (yields_many yields_varDecAt).bind fun _ hlocals =>
    yields_statementsAt.bind fun _ hbody => yields_expect.discard.bind fun _ _ =>
      .pure ⟨hlocals, hbody⟩

theorem yields_subroutineAt : (subroutineAt fuel).Yields Subroutine.Spelled := by
  refine yields_peekKind.bind fun k _ => ?_
  split
  · exact yields_unexpected
  · exact yields_next.discard.bind fun _ _ => yields_returnType.bind fun _ _ =>
      yields_ident.bind fun _ hname =>
      yields_expect.discard.bind fun _ _ => yields_parametersAt.bind fun _ hparameters =>
      yields_expect.discard.bind fun _ _ => yields_bodyAt.bind fun _ hbody =>
      .pure ⟨hname, hparameters, hbody.1, hbody.2⟩

theorem yields_classVarDecAt :
    (classVarDecAt fuel).Yields fun d => d.type.Spelled ∧ ∀ x ∈ d.names, x.Spelled := by
  refine yields_peekKind.bind fun k _ => ?_
  split
  · exact yields_unexpected
  · exact yields_next.discard.bind fun _ _ => yields_typeName.bind fun _ htype =>
      (yields_separated yields_ident).bind fun _ hnames => yields_expect.discard.bind fun _ _ =>
        .pure ⟨htype, hnames⟩

theorem yields_classAt : (classAt fuel).Yields Class.Spelled :=
  yields_expect.discard.bind fun _ _ => yields_ident.bind fun _ hname =>
    yields_expect.discard.bind fun _ _ =>
    (yields_many yields_classVarDecAt).bind fun _ hvars =>
      (yields_many yields_subroutineAt).bind fun _ hsubroutines =>
    yields_expect.discard.bind fun _ _ => .pure ⟨hname, hvars, hsubroutines⟩

theorem yields_unitAt : (unitAt fuel).Yields Class.Spelled := by
  refine yields_classAt.bind fun c hc => yields_peekKind.bind fun k _ => ?_
  split
  · exact yields_next.discard.bind fun _ _ => .pure hc
  · exact yields_unexpected

end Parse

/-! ### Sources -/

/-- The tokens of a source are spelled as their kinds say. -/
theorem TokenStream.spelled_ofSource (source : String) : (TokenStream.ofSource source).Spelled := by
  obtain ⟨items, hlayout⟩ := exists_layout .origin source.toList
  intro t ht
  rw [items_ofSource] at ht
  have hitems : (Cursor.ofSource source).items = items := items_of_layout hlayout
  rw [hitems] at ht
  exact kindByText_of_layout hlayout t (List.mem_filterMap.mpr ⟨.ok t, ht, rfl⟩)

/-- **What a source is parsed to is well spelled.** -/
theorem spelled_of_parseUnit {source : String} {c : Class} (h : parseUnit source = .ok c) :
    c.Spelled := by
  have hrun : (Reading.withFuel Parse.unitAt).run (TokenStream.ofSource source) =
      Parse.unitAt (TokenStream.ofSource source).fuel (TokenStream.ofSource source) := rfl
  unfold parseUnit at h
  rw [hrun] at h
  cases hr : Parse.unitAt (TokenStream.ofSource source).fuel (TokenStream.ofSource source) with
  | error e s =>
    rw [hr] at h
    cases h
  | ok c' s =>
    rw [hr] at h
    cases h
    exact (Parse.yields_unitAt _ _ _ (TokenStream.spelled_ofSource source) hr).1

end JackToolchain.Jack
