import JackToolchain.Jack.Markup
import JackToolchain.Proofs.Jack.Takes

/-!
# The tree keeps every token

A tree has no tokens, but its markup has lexemes, and these are the lexemes of the tokens that it
has been read from: none is missing, none is there twice, and they are in order
(`lexemes_of_parseUnit`).  Keywords and symbols are not kept in a tree; they come back since the
rules of the grammar say where they stand, and since a token of their kind is spelled in one way
only.

There is one lemma for each reader of the parser: what it takes are the lexemes of the markup of its
result.
-/

namespace JackToolchain.Jack

/-! ### Lexemes of markup -/

namespace Markup

@[simp] theorem lexemes_leaf (l : Lexeme) : (leaf l).lexemes = [l] := by rw [lexemes]

@[simp] theorem lexemes_element (tag : String) (children : List Markup) :
    (element tag children).lexemes = lexemesAll children := by rw [lexemes]

@[simp] theorem lexemesAll_nil : lexemesAll [] = [] := by rw [lexemesAll]

@[simp] theorem lexemesAll_cons (m : Markup) (ms : List Markup) :
    lexemesAll (m :: ms) = m.lexemes ++ lexemesAll ms := by
  rw [lexemesAll]

@[simp] theorem lexemesAll_append (ms ms' : List Markup) :
    lexemesAll (ms ++ ms') = lexemesAll ms ++ lexemesAll ms' := by
  induction ms with
  | nil => simp
  | cons m ms ih => simp [ih]

@[simp] theorem lexemes_symbol (s : Symbol) : (symbol s).lexemes = [.ofSymbol s] := lexemes_leaf _

@[simp] theorem lexemes_keyword (k : Keyword) : (keyword k).lexemes = [.ofKeyword k] :=
  lexemes_leaf _

/-- Items with a comma behind each of them, and then those without one behind the last. -/
theorem lexemesAll_separated_append (items : List (List Markup)) (item : List Markup) :
    lexemesAll (separated (items ++ [item])) =
      (items.flatMap fun item => lexemesAll item ++ [.ofSymbol .comma]) ++ lexemesAll item := by
  induction items with
  | nil => simp [separated]
  | cons first items ih =>
    have hrest : separated (first :: (items ++ [item])) = first ++ symbol .comma ::
        separated (items ++ [item]) := by
      cases items <;> rfl
    rw [List.cons_append, hrest]
    simp [ih]

end Markup

theorem argsMarkup_eq_separated (args : List Expr) :
    argsMarkup args = Markup.separated (args.map fun arg => [arg.markup]) := by
  induction args with
  | nil => rfl
  | cons arg args ih =>
    cases args with
    | nil => rfl
    | cons arg' args =>
      rw [argsMarkup, ih]
      · rfl
      · nofun

/-! ### The readers of the parser -/

namespace Parse

open Reading Markup

variable {α : Type} {fuel : Nat}

theorem takes_ident : Takes ident fun u x => u = x.markup.lexemes := by
  refine takes_expect.bind ?_
  rintro u t ⟨rfl, hkind, -⟩
  refine .pure ?_
  rw [Token.Spelled.eq_ident hkind]
  simp [Ident.markup]

/-- Items with commas between them. -/
theorem takes_separated {item : Reading α} {markup : α → List Markup}
    (h : Takes item fun u x => u = lexemesAll (markup x)) :
    Takes (separated item fuel) fun u xs => u = lexemesAll (Markup.separated (xs.map markup)) := by
  -- What has been taken for the items before comes in front of what is taken now.
  have hfrom (done : List α) : Takes (separatedFrom item fuel done) fun u xs =>
      ((done.reverse.map markup).flatMap fun m => lexemesAll m ++ [.ofSymbol .comma]) ++ u =
        lexemesAll (Markup.separated (xs.map markup)) := by
    induction fuel generalizing done with
    | zero => exact .exhausted
    | succ fuel ih =>
      refine h.bind ?_
      rintro u x rfl
      refine (takes_acceptSymbol .comma).bind ?_
      rintro v comma rfl
      cases comma with
      | some =>
        refine (ih (x :: done)).mono fun w xs hw => ?_
        rw [← hw]
        simp
      | none =>
        refine .pure ?_
        rw [List.reverse_cons, List.map_append, List.map_singleton, lexemesAll_separated_append]
        simp
  exact (hfrom []).mono fun u xs hu => hu

/-- Items one behind the other. -/
theorem takes_many {begins : Kind → Bool} {item : Reading α} {markup : α → Markup}
    (h : Takes item fun u x => u = (markup x).lexemes) :
    Takes (many begins item fuel) fun u xs => u = lexemesAll (xs.map markup) := by
  have hfrom (done : List α) : Takes (whileFrom begins item fuel done) fun u xs =>
      lexemesAll (done.reverse.map markup) ++ u = lexemesAll (xs.map markup) := by
    induction fuel generalizing done with
    | zero => exact .exhausted
    | succ fuel ih =>
      refine .peekKind fun t ht => ?_
      split
      · refine h.from.bind ?_
        rintro u x rfl
        refine (ih (x :: done)).mono fun w xs hw => ?_
        rw [← hw]
        simp
      · exact .pure (List.append_nil _)
  exact (hfrom []).mono fun u xs hu => hu

/-- A keyword in view that is consumed. -/
theorem takes_keywordInView {t : Token} (ht : t.Spelled) {k : Keyword}
    (hkind : t.kind = .keyword k) :
    TakesFrom (TokenStream.HasInView t) (discard next) fun u _ => u = [.ofKeyword k] := by
  refine .discard (takes_next.mono ?_)
  rintro u t' ⟨rfl, -⟩
  rw [ht.eq_ofKeyword hkind]

/-- A symbol in view that is consumed. -/
theorem takes_symbolInView {t : Token} (ht : t.Spelled) {s : Symbol} (hkind : t.kind = .symbol s) :
    TakesFrom (TokenStream.HasInView t) (discard next) fun u _ => u = [.ofSymbol s] := by
  refine .discard (takes_next.mono ?_)
  rintro u t' ⟨rfl, -⟩
  rw [ht.eq_ofSymbol hkind]

theorem takes_typeName : Takes typeName fun u type => u = type.markup.lexemes := by
  have hkeyword (t : Token) (ht : t.Spelled) (k : Keyword) (hkind : t.kind = .keyword k)
      (type : TypeName) (hmarkup : type.markup = .keyword k) :
      TakesFrom (TokenStream.HasInView t) (do discard next; return type) fun u type =>
      u = type.markup.lexemes := by
    refine (takes_keywordInView ht hkind).bind ?_
    rintro u _ rfl
    refine .pure ?_
    rw [hmarkup]
    simp
  refine .peekKind fun t ht => ?_
  split
  · next hkind => exact hkeyword t ht _ hkind .int rfl
  · next hkind => exact hkeyword t ht _ hkind .char rfl
  · next hkind => exact hkeyword t ht _ hkind .boolean rfl
  · refine takes_ident.from.bind ?_
    rintro u x rfl
    refine .pure ?_
    simp [TypeName.markup]
  · exact .unexpected

theorem takes_returnType : Takes returnType fun u type => u = type.markup.lexemes := by
  refine (takes_acceptKeyword .void).bind ?_
  rintro u void rfl
  cases void with
  | some => exact .pure (by simp [ReturnType.markup])
  | none =>
    refine takes_typeName.bind ?_
    rintro v type rfl
    exact .pure (by simp [ReturnType.markup])

theorem lexeme_of_literalOf? {t : Token} (ht : t.Spelled) {value : Literal}
    (h : literalOf? t = some value) : value.lexeme = t.toLexeme := by
  unfold literalOf? at h
  split at h
  · next n hkind =>
    cases h
    rw [Literal.lexeme, ← hkind]
  · next hkind =>
    cases h
    exact (ht.eq_ofString hkind).symm
  · next hkind =>
    cases h
    exact (ht.eq_ofKeyword hkind).symm
  · next hkind =>
    cases h
    exact (ht.eq_ofKeyword hkind).symm
  · next hkind =>
    cases h
    exact (ht.eq_ofKeyword hkind).symm
  · next hkind =>
    cases h
    exact (ht.eq_ofKeyword hkind).symm
  · cases h

theorem takes_literal : Takes literal fun u value => u = [value.lexeme] := by
  refine .peek fun t ht => ?_
  split
  · next value hvalue =>
    refine TakesFrom.bind (.discard (takes_next.mono fun u t' h => h.1)) ?_
    rintro u _ rfl
    refine .pure ?_
    rw [lexeme_of_literalOf? ht hvalue, List.append_nil]
  · exact .unexpected

/-! ### Expressions -/

theorem lexemesAll_operandsMarkup_append (operands : List Operand) (op : BinaryOp) (term : Term) :
    lexemesAll (operandsMarkup (operands ++ [.mk op term])) =
      lexemesAll (operandsMarkup operands) ++ .ofSymbol op.symbol :: term.markup.lexemes := by
  induction operands with
  | nil => simp [operandsMarkup]
  | cons operand operands ih =>
    obtain ⟨op', term'⟩ := operand
    simp [operandsMarkup, ih]

theorem kind_eq_of_ofKind? {k : Kind} {op : BinaryOp} (h : BinaryOp.ofKind? k = some op) :
    k = .symbol op.symbol := by
  unfold BinaryOp.ofKind? at h
  split at h <;> cases h <;> rfl

theorem takes_operandsFrom {term : Reading Term} (h : Takes term fun u t => u = t.markup.lexemes)
    (done : List Operand) : Takes (operandsFrom term fuel done) fun u operands =>
      lexemesAll (operandsMarkup done.reverse) ++ u = lexemesAll (operandsMarkup operands) := by
  induction fuel generalizing done with
  | zero => exact .exhausted
  | succ fuel ih =>
    refine .peekKind fun t ht => ?_
    split
    · next op hop =>
      refine (takes_symbolInView ht (kind_eq_of_ofKind? hop)).bind ?_
      rintro u _ rfl
      refine h.bind ?_
      rintro v term rfl
      refine (ih (.mk op term :: done)).mono fun w operands hw => ?_
      rw [← hw, List.reverse_cons, lexemesAll_operandsMarkup_append]
      simp
    · exact .pure (List.append_nil _)

theorem takes_exprOf {term : Reading Term} (h : Takes term fun u t => u = t.markup.lexemes) :
    Takes (exprOf term fuel) fun u e => u = e.markup.lexemes := by
  refine h.bind ?_
  rintro u t rfl
  refine (takes_operandsFrom h []).bind fun v tail hv => .pure ?_
  rw [Expr.markup, lexemes_element, lexemesAll_cons, ← hv]
  simp [operandsMarkup]

section
variable {expr : Reading Expr}

theorem takes_parenOf (h : Takes expr fun u e => u = e.markup.lexemes) :
    Takes (parenOf expr) fun u e => u = lexemesAll e.conditionMarkup := by
  refine (takes_symbol .leftParen).discard.bind ?_
  rintro u _ rfl
  refine h.bind ?_
  rintro v e rfl
  refine (takes_symbol .rightParen).discard.bind ?_
  rintro w _ rfl
  exact .pure (by simp [Expr.conditionMarkup])

theorem takes_subscriptOf (h : Takes expr fun u e => u = e.markup.lexemes) :
    Takes (subscriptOf expr) fun u e =>
      u = .ofSymbol .leftBracket :: e.markup.lexemes ++ [.ofSymbol .rightBracket] := by
  refine (takes_symbol .leftBracket).discard.bind ?_
  rintro u _ rfl
  refine h.bind ?_
  rintro v e rfl
  refine (takes_symbol .rightBracket).discard.bind ?_
  rintro w _ rfl
  exact .pure (by simp)

theorem takes_argsOf (h : Takes expr fun u e => u = e.markup.lexemes) :
    Takes (argsOf expr fuel) fun u args => u = lexemesAll (argsMarkup args) := by
  refine .peekKind fun t ht => ?_
  split
  · exact .pure (by simp [argsMarkup])
  · have harg : Takes expr fun u e => u = lexemesAll [e.markup] := h.mono fun u e hu => by simp [hu]
    refine (takes_separated harg).from.mono fun u args hu => ?_
    rw [hu, argsMarkup_eq_separated]

theorem takes_callOf (h : Takes expr fun u e => u = e.markup.lexemes) :
    Takes (callOf expr fuel) fun u call => u = lexemesAll call.markup := by
  refine takes_ident.bind ?_
  rintro u first rfl
  refine (takes_acceptSymbol .dot).bind ?_
  rintro v dot rfl
  -- Behind a dot the first name is the receiver, and the name of the subroutine follows.
  have hrest (receiver : Option Ident) (name : Ident) (front : List Lexeme)
      (hfront : ∀ paren args, lexemesAll (Call.mk receiver name paren args).markup =
        front ++ .ofSymbol .leftParen :: lexemesAll (argsMarkup args) ++ [.ofSymbol .rightParen]) :
      Takes (do
          let paren ← expect (.symbol .leftParen)
          let args ← argsOf expr fuel
          discard <| expect (.symbol .rightParen)
          return Call.mk receiver name paren.span args)
        fun u call => front ++ u = lexemesAll call.markup := by
    refine (takes_symbol .leftParen).bind ?_
    rintro u paren rfl
    refine (takes_argsOf h).bind ?_
    rintro v args rfl
    refine (takes_symbol .rightParen).discard.bind ?_
    rintro w _ rfl
    refine .pure ?_
    rw [hfront]
    simp
  cases dot with
  | some =>
    refine takes_ident.bind ?_
    rintro w name rfl
    refine (hrest (some first) name (first.markup.lexemes ++ .ofSymbol .dot :: name.markup.lexemes)
      ?_).mono ?_
    · simp [Call.markup]
    · intro w call hw
      rw [← hw]
      simp
  | none =>
    refine (hrest none first first.markup.lexemes ?_).mono ?_
    · simp [Call.markup]
    · intro w call hw
      rw [← hw]
      simp

end

theorem takes_termAt : Takes (termAt fuel) fun u t => u = t.markup.lexemes := by
  induction fuel with
  | zero => exact .exhausted
  | succ fuel ih =>
    have hexpr : Takes (exprOf (termAt fuel) fuel) fun u e => u = e.markup.lexemes :=
      takes_exprOf ih
    have hliteral : Takes (do return .literal (← literal)) fun u (t : Term) =>
        u = t.markup.lexemes := by
      refine takes_literal.bind ?_
      rintro u value rfl
      exact .pure (by simp [Term.markup])
    have hunary (t : Token) (ht : t.Spelled) (op : UnaryOp) (hkind : t.kind = .symbol op.symbol) :
        TakesFrom (TokenStream.HasInView t)
          (do
            discard next
            return .unary op (← termAt fuel) : Reading Term)
          fun u t => u = t.markup.lexemes := by
      refine (takes_symbolInView ht hkind).bind ?_
      rintro u _ rfl
      refine ih.bind ?_
      rintro v t rfl
      exact .pure (by simp [Term.markup])
    rw [termAt]
    refine .peekKind fun t ht => ?_
    split
    · exact hliteral.from
    · exact hliteral.from
    · exact hliteral.from
    · exact hliteral.from
    · exact hliteral.from
    · exact hliteral.from
    · refine .peekSecond fun second => ?_
      split
      · refine takes_ident.from.bind ?_
        rintro u x rfl
        refine (takes_subscriptOf hexpr).bind ?_
        rintro v e rfl
        exact .pure (by simp [Term.markup])
      · refine (takes_callOf hexpr).from.bind ?_
        rintro u call rfl
        exact .pure (by simp [Term.markup])
      · refine (takes_callOf hexpr).from.bind ?_
        rintro u call rfl
        exact .pure (by simp [Term.markup])
      · refine takes_ident.from.bind ?_
        rintro u x rfl
        exact .pure (by simp [Term.markup])
    · refine (takes_parenOf hexpr).from.bind ?_
      rintro u e rfl
      exact .pure (by simp [Term.markup, Expr.conditionMarkup])
    · next hkind => exact hunary t ht .neg hkind
    · next hkind => exact hunary t ht .not hkind
    · exact .unexpected

theorem takes_exprAt : Takes (exprAt fuel) fun u e => u = e.markup.lexemes :=
  takes_exprOf takes_termAt

/-! ### Statements -/

theorem statementsMarkup_eq_map (body : List Statement) :
    statementsMarkup body = body.map Statement.markup := by
  induction body with
  | nil => rfl
  | cons s body ih =>
    rw [statementsMarkup, ih]
    rfl

/-- The lexemes of a block. -/
def blockLexemes (body : List Statement) : List Lexeme :=
  .ofSymbol .leftBrace :: lexemesAll (statementsMarkup body) ++ [.ofSymbol .rightBrace]

section
variable {expr : Reading Expr} {block : Reading (List Statement)}

theorem takes_blockOf {statement : Reading Statement}
    (h : Takes statement fun u s => u = s.markup.lexemes) :
    Takes (blockOf statement fuel) fun u body => u = blockLexemes body := by
  refine (takes_symbol .leftBrace).discard.bind ?_
  rintro u _ rfl
  refine (takes_many h).bind ?_
  rintro v body rfl
  refine (takes_symbol .rightBrace).discard.bind ?_
  rintro w _ rfl
  exact .pure (by simp [blockLexemes, statementsMarkup_eq_map])

theorem takes_letOf (h : Takes expr fun u e => u = e.markup.lexemes) :
    Takes (letOf expr) fun u s => u = s.markup.lexemes := by
  refine (takes_keyword .let).discard.bind ?_
  rintro u _ rfl
  refine takes_ident.bind ?_
  rintro v x rfl
  have hrest (make : Expr → Statement) (front : List Lexeme)
      (hfront : ∀ value, (make value).markup.lexemes =
        front ++ .ofSymbol .equals :: value.markup.lexemes ++ [.ofSymbol .semicolon]) :
      Takes (do
          discard <| expect (.symbol .equals)
          let value ← expr
          discard <| expect (.symbol .semicolon)
          return make value)
        fun u s => front ++ u = s.markup.lexemes := by
    refine (takes_symbol .equals).discard.bind ?_
    rintro u _ rfl
    refine h.bind ?_
    rintro v value rfl
    refine (takes_symbol .semicolon).discard.bind ?_
    rintro w _ rfl
    refine .pure ?_
    rw [hfront]
    simp
  refine .peekKind fun t ht => ?_
  split
  · have hsubscript : TakesFrom (TokenStream.HasInView t) (some <$> subscriptOf expr)
      fun u subscript =>
        ∃ e, subscript = some e ∧
          u = .ofSymbol .leftBracket :: e.markup.lexemes ++ [.ofSymbol .rightBracket] :=
      .map ((takes_subscriptOf h).from.mono fun u e hu => ⟨e, rfl, hu⟩)
    refine hsubscript.bind ?_
    rintro w _ ⟨e, rfl, rfl⟩
    refine (hrest (.assignElement x e) (.ofKeyword .let :: x.markup.lexemes ++
      .ofSymbol .leftBracket :: e.markup.lexemes ++ [.ofSymbol .rightBracket]) fun value => ?_).mono
      fun u s hu => ?_
    · simp [Statement.markup]
    · rw [← hu]
      simp
  · refine (hrest (.assign x) (.ofKeyword .let :: x.markup.lexemes) fun value => ?_).from.mono
      fun u s hu => ?_
    · simp [Statement.markup]
    · rw [← hu]
      simp

theorem takes_ifOf (h : Takes expr fun u e => u = e.markup.lexemes)
    (hblock : Takes block fun u body => u = blockLexemes body) :
    Takes (ifOf expr block) fun u s => u = s.markup.lexemes := by
  refine (takes_keyword .if).discard.bind ?_
  rintro u _ rfl
  refine (takes_parenOf h).bind ?_
  rintro v condition rfl
  refine hblock.bind ?_
  rintro w body rfl
  refine (takes_acceptKeyword .else).bind ?_
  rintro z otherwise rfl
  cases otherwise with
  | some =>
    refine hblock.bind ?_
    rintro u alternative rfl
    exact .pure (by simp [Statement.markup, blockLexemes])
  | none => exact .pure (by simp [Statement.markup, blockLexemes])

theorem takes_whileOf (h : Takes expr fun u e => u = e.markup.lexemes)
    (hblock : Takes block fun u body => u = blockLexemes body) :
    Takes (whileOf expr block) fun u s => u = s.markup.lexemes := by
  refine (takes_keyword .while).discard.bind ?_
  rintro u _ rfl
  refine (takes_parenOf h).bind ?_
  rintro v condition rfl
  refine hblock.bind ?_
  rintro w body rfl
  exact .pure (by simp [Statement.markup, blockLexemes])

theorem takes_doOf {call : Reading Call} (h : Takes call fun u call => u = lexemesAll call.markup) :
    Takes (doOf call) fun u s => u = s.markup.lexemes := by
  refine (takes_keyword .do).discard.bind ?_
  rintro u _ rfl
  refine h.bind ?_
  rintro v call rfl
  refine (takes_symbol .semicolon).discard.bind ?_
  rintro w _ rfl
  exact .pure (by simp [Statement.markup])

theorem takes_returnOf (h : Takes expr fun u e => u = e.markup.lexemes) :
    Takes (returnOf expr) fun u s => u = s.markup.lexemes := by
  refine (takes_keyword .return).discard.bind ?_
  rintro u _ rfl
  have hrest (value : Option Expr) : Takes (do
          discard <| expect (.symbol .semicolon)
          return .return value)
        fun u (s : Statement) =>
          .ofKeyword .return :: value.toList.flatMap (fun e => e.markup.lexemes) ++ u =
            s.markup.lexemes := by
    refine (takes_symbol .semicolon).discard.bind ?_
    rintro u _ rfl
    cases value <;> exact .pure (by simp [Statement.markup])
  refine .peekKind fun t ht => ?_
  split
  · exact (hrest none).from
  · have hvalue : TakesFrom (TokenStream.HasInView t) (some <$> expr) fun u value =>
        u = value.toList.flatMap fun e => e.markup.lexemes :=
      .map (h.from.mono fun u e hu => by simp [hu])
    refine hvalue.bind ?_
    rintro v value rfl
    exact hrest value

end

theorem takes_statementAt : Takes (statementAt fuel) fun u s => u = s.markup.lexemes := by
  induction fuel with
  | zero => exact .exhausted
  | succ fuel ih =>
    rw [statementAt]
    refine .peekKind fun t _ => ?_
    split
    · exact (takes_letOf takes_exprAt).from
    · exact (takes_ifOf takes_exprAt (takes_blockOf ih)).from
    · exact (takes_whileOf takes_exprAt (takes_blockOf ih)).from
    · exact (takes_doOf (takes_callOf takes_exprAt)).from
    · exact (takes_returnOf takes_exprAt).from
    · exact .unexpected

theorem takes_statementsAt :
    Takes (statementsAt fuel) fun u body => u = lexemesAll (statementsMarkup body) :=
  (takes_many takes_statementAt).mono fun u body hu => by rw [hu, statementsMarkup_eq_map]

/-! ### Declarations -/

theorem takes_namesAt : Takes (namesAt fuel) fun u names => u = lexemesAll (namesMarkup names) :=
  takes_separated (takes_ident.mono fun u x hu => by simp [hu])

theorem takes_parametersAt : Takes (parametersAt fuel) fun u parameters =>
    u = lexemesAll (Markup.separated (parameters.map fun p => [p.type.markup, p.name.markup])) := by
  have hparameter : Takes parameter fun u p => u = lexemesAll [p.type.markup, p.name.markup] := by
    refine takes_typeName.bind ?_
    rintro u type rfl
    refine takes_ident.bind ?_
    rintro v x rfl
    exact .pure (by simp)
  refine .peekKind fun t _ => ?_
  split
  · exact .pure rfl
  · exact (takes_separated hparameter).from

theorem takes_varDecAt : Takes (varDecAt fuel) fun u d => u = d.markup.lexemes := by
  refine (takes_keyword .var).discard.bind ?_
  rintro u _ rfl
  refine takes_typeName.bind ?_
  rintro v type rfl
  refine takes_namesAt.bind ?_
  rintro w names rfl
  refine (takes_symbol .semicolon).discard.bind ?_
  rintro z _ rfl
  exact .pure (by simp [VarDec.markup])

theorem takes_bodyAt : Takes (bodyAt fuel) fun u body => u = .ofSymbol .leftBrace ::
    lexemesAll (body.1.map VarDec.markup) ++ lexemesAll (statementsMarkup body.2)
      ++ [.ofSymbol .rightBrace] := by
  refine (takes_symbol .leftBrace).discard.bind ?_
  rintro u _ rfl
  refine (takes_many takes_varDecAt).bind ?_
  rintro v locals rfl
  refine takes_statementsAt.bind ?_
  rintro w body rfl
  refine (takes_symbol .rightBrace).discard.bind ?_
  rintro z _ rfl
  exact .pure (by simp)

theorem kind_eq_of_subroutineKind? {k : Kind} {kind : SubroutineKind}
    (h : subroutineKind? k = some kind) : k = .keyword kind.keyword := by
  unfold subroutineKind? at h
  split at h <;> cases h <;> rfl

theorem takes_subroutineAt : Takes (subroutineAt fuel) fun u s => u = s.markup.lexemes := by
  refine .peekKind fun t ht => ?_
  split
  · exact .unexpected
  · next kind hkind =>
    refine (takes_keywordInView ht (kind_eq_of_subroutineKind? hkind)).bind ?_
    rintro u _ rfl
    refine takes_returnType.bind ?_
    rintro v returns rfl
    refine takes_ident.bind ?_
    rintro w name rfl
    refine (takes_symbol .leftParen).discard.bind ?_
    rintro z _ rfl
    refine takes_parametersAt.bind ?_
    rintro u parameters rfl
    refine (takes_symbol .rightParen).discard.bind ?_
    rintro v _ rfl
    refine takes_bodyAt.bind ?_
    rintro w body rfl
    exact .pure (by simp [Subroutine.markup])

theorem kind_eq_of_classVarKind? {k : Kind} {kind : ClassVarKind}
    (h : classVarKind? k = some kind) : k = .keyword kind.keyword := by
  unfold classVarKind? at h
  split at h <;> cases h <;> rfl

theorem takes_classVarDecAt : Takes (classVarDecAt fuel) fun u d => u = d.markup.lexemes := by
  refine .peekKind fun t ht => ?_
  split
  · exact .unexpected
  · next kind hkind =>
    refine (takes_keywordInView ht (kind_eq_of_classVarKind? hkind)).bind ?_
    rintro u _ rfl
    refine takes_typeName.bind ?_
    rintro v type rfl
    refine takes_namesAt.bind ?_
    rintro w names rfl
    refine (takes_symbol .semicolon).discard.bind ?_
    rintro z _ rfl
    exact .pure (by simp [ClassVarDec.markup])

theorem takes_classAt : Takes (classAt fuel) fun u c => u = c.markup.lexemes := by
  refine (takes_keyword .class).discard.bind ?_
  rintro u _ rfl
  refine takes_ident.bind ?_
  rintro v name rfl
  refine (takes_symbol .leftBrace).discard.bind ?_
  rintro w _ rfl
  refine (takes_many takes_classVarDecAt).bind ?_
  rintro z vars rfl
  refine (takes_many takes_subroutineAt).bind ?_
  rintro u subroutines rfl
  refine (takes_symbol .rightBrace).discard.bind ?_
  rintro v _ rfl
  exact .pure (by simp [Class.markup])

/-- A unit is a class and the end of the source. -/
theorem takes_unitAt : Takes (unitAt fuel) fun u c => u = c.markup.lexemes ++ [⟨.eos, ""⟩] := by
  refine takes_classAt.bind ?_
  rintro u c rfl
  refine .peekKind fun t ht => ?_
  split
  · next hkind =>
    refine TakesFrom.bind (.discard (takes_next.mono fun u t' h => h.1)) ?_
    rintro v _ rfl
    have hend : t.toLexeme = ⟨.eos, ""⟩ := by
      have htext := ht.eos.mp hkind
      obtain ⟨⟨kind, text⟩, span⟩ := t
      cases hkind
      cases htext
      rfl
    exact .pure (by rw [hend, List.append_nil])
  · exact .unexpected

end Parse

/-! ### Sources -/

theorem Ended.of_append {front items : List Item} (h : Ended (front ++ items)) : Ended items := by
  induction front with
  | nil => exact h
  | cons item front ih => exact ih h.2

/-- **The tree of a source keeps its tokens.**  Behind the lexemes of its markup there is nothing
but the end of the source. -/
theorem lexemes_of_parseUnit {source : String} {c : Class} (h : parseUnit source = .ok c) :
    ∃ tokens, tokenize source = .ok tokens ∧
      tokens.map Token.toLexeme = c.markup.lexemes ++ [⟨.eos, ""⟩] := by
  have hrun : (Reading.withFuel Parse.unitAt).run (TokenStream.ofSource source) =
      Parse.unitAt (TokenStream.ofSource source).fuel (TokenStream.ofSource source) := rfl
  unfold parseUnit at h
  rw [hrun] at h
  cases hr : Parse.unitAt (TokenStream.ofSource source).fuel (TokenStream.ofSource source) with
  | error e s =>
    rw [hr] at h
    cases h
  | ok c' s =>
    rw [hr] at h
    cases h
    obtain ⟨w, hitems, hw⟩ :=
      Parse.takes_unitAt _ _ _ trivial (TokenStream.allSpelled_ofSource source) hr
    refine ⟨w, tokenize_eq_ok_iff.mpr ?_, hw⟩
    -- Nothing stands behind the end of a source.
    obtain ⟨front, last, rfl, hfront, hlast⟩ := List.map_eq_append_iff.mp hw
    obtain ⟨t, rfl, ht⟩ := List.map_eq_singleton_iff.mp hlast
    have hended : Ended (.ok t :: s.items) := by
      have hall : Ended (TokenStream.ofSource source).items :=
        (TokenStream.ofSource source).lookahead.ended
      rw [hitems, List.map_append, List.append_assoc] at hall
      exact hall.of_append
    have hnil : s.items = [] := hended.1.mpr (beq_iff_eq.mpr (congrArg Lexeme.kind ht))
    rw [← TokenStream.items_ofSource, hitems, hnil, List.append_nil]

end JackToolchain.Jack
