import JackToolchain.Proofs.Jack.Reads

/-!
# The readers of the parser read the rules of the grammar

For each reader there is the fact that it reads the language of its rule, with the kinds that must
not come behind: those with which the reader would go on.  A term, for instance, goes on with a
bracket, a parenthesis or a dot behind a name, and an expression with an operator as well.
-/

namespace JackToolchain.Jack

open Computability Grammar Parse

variable {n m : Nat} {A : Set Kind}

/-! ### Names, types and literals -/

theorem reads_ident : Reads n ident (tok .ident) ∅ := (Reads.expect (by decide)).map

theorem reads_typeName : Reads n typeName (lang .type) ∅ := by
  refine .peekKind fun k => ?_
  have hpart (hk : k = .keyword .int ∨ k = .keyword .char ∨ k = .keyword .boolean ∨ k = .ident)
      {p : Reading TypeName} (h : ReadsAt k n p (tok k) ∅) : ReadsAt k n p (lang .type) ∅ := by
    refine h.part ?_ nil_notMem_type fun z hz => cons_mem_tok.mpr ⟨rfl, (cons_mem_type.mp hz).2⟩
    rintro w ⟨k', rfl, rfl⟩
    exact cons_mem_type.mpr ⟨hk, rfl⟩
  split
  · exact hpart (by simp) (ReadsAt.next (by decide)).discard.map
  · exact hpart (by simp) (ReadsAt.next (by decide)).discard.map
  · exact hpart (by simp) (ReadsAt.next (by decide)).discard.map
  · exact hpart (by simp) reads_ident.map.at
  · next hint hchar hboolean hident =>
    refine .unexpected fun K _ z hz => ?_
    rcases cons_mem_mul hz with ⟨u, v, -, hu, -⟩ | ⟨hempty, -⟩
    · rcases (cons_mem_type.mp hu).1 with h | h | h | h
      · exact hint h
      · exact hchar h
      · exact hboolean h
      · exact hident h
    · exact nil_notMem_type hempty

theorem reads_returnType : Reads n returnType (kw .void + lang .type) ∅ := by
  have hread : Reads n returnType (kw .void * 1 + lang .type) ∅ := by
    refine .acceptThen (by decide) n.le_succ (fun _ => .pure _) reads_typeName.map fun K _ => ?_
    intro k z hz hk
    rcases cons_mem_mul hz with ⟨u, v, -, hu, -⟩ | ⟨hempty, -⟩
    · obtain ⟨h, -⟩ := cons_mem_type.mp hu
      cases hk
      simp at h
    · exact nil_notMem_type hempty
  rwa [mul_one] at hread

/-- A literal is read where the token in view is one. -/
theorem readsAt_literal {k : Kind} (hk : k ≠ .eos)
    (hliteral : ∀ t : Token, t.kind = k → (literalOf? t).isSome) :
    ReadsAt k n literal (tok k) ∅ := by
  intro s K t rest hitems ht hlength hK hA
  unfold literal
  rw [Reading.bind_of_ok (Reading.peek_of_ok hitems)]
  obtain ⟨value, hvalue⟩ := Option.isSome_iff_exists.mp (hliteral t ht)
  rw [hvalue]
  exact (ReadsAt.next hk).discard.map.fits_of_items s.items_looked hitems ht hlength hK hA

/-! ### Expressions -/

/-- Behind a name that is a term, these go on with the term. -/
def termGoesOn : Set Kind := {.symbol .leftBracket, .symbol .leftParen, .symbol .dot}

/-- What goes on with an expression: what goes on with its last term, or an operator. -/
def exprGoesOn : Set Kind := termGoesOn ∪ {k | (BinaryOp.ofKind? k).isSome}

/-- An expression ends in front of these. -/
theorem notMem_exprGoesOn :
    ∀ s ∈ [Symbol.rightParen, .rightBracket, .comma, .semicolon], Kind.symbol s ∉ exprGoesOn := by
  simp [exprGoesOn, termGoesOn, BinaryOp.ofKind?]

theorem cons_mem_op {k : Kind} {z : List Kind} :
    k :: z ∈ lang .op ↔ (BinaryOp.ofKind? k).isSome ∧ z = [] := by
  rw [lang_op]
  simp only [Language.mem_add, cons_mem_tok, ← or_and_right]
  refine and_congr_left' ?_
  cases k with
  | symbol s => cases s <;> simp [BinaryOp.ofKind?]
  | keyword | int | string | ident | eos => simp [BinaryOp.ofKind?]

theorem nil_notMem_op : [] ∉ lang .op := by
  rw [lang_op]
  simp only [Language.mem_add, nil_notMem_tok, or_self, not_false_iff]

theorem notMem_termGoesOn_of_op {k : Kind} (h : (BinaryOp.ofKind? k).isSome) : k ∉ termGoesOn := by
  rintro (rfl | rfl | rfl) <;> cases h

theorem avoids_op_mul {L : Language Kind} : Avoids (lang .op * L) termGoesOn := by
  refine avoids_mul (fun k z hz => ?_) fun h => absurd h nil_notMem_op
  exact notMem_termGoesOn_of_op (cons_mem_op.mp hz).1

section
variable {term : Reading Term} {expr : Reading Expr}

theorem reads_operandsFrom (hterm : Reads m term (lang .term) termGoesOn) (hn : n ≤ m)
    (done : List Operand) :
    Reads n (operandsFrom term n done) ((lang .op * lang .term)∗) exprGoesOn := by
  induction n generalizing done with
  | zero => exact .zero
  | succ n ih =>
    have hnil : [] ∉ lang .op * lang .term := nil_notMem_mul nil_notMem_op
    have hcons {k : Kind} {z : List Kind} (h : k :: z ∈ lang .op * lang .term) :
        (BinaryOp.ofKind? k).isSome ∧ z ∈ lang .term := by
      rcases cons_mem_mul h with ⟨u, v, rfl, hu, hv⟩ | ⟨hempty, -⟩
      · obtain ⟨hop, rfl⟩ := cons_mem_op.mp hu
        exact ⟨hop, hv⟩
      · exact absurd hempty nil_notMem_op
    refine .peekKind fun k => ?_
    cases hk : BinaryOp.ofKind? k with
    | some op =>
      have hop : (BinaryOp.ofKind? k).isSome := Option.isSome_of_eq_some hk
      have heos : k ≠ .eos := by
        rintro rfl
        cases hk
      refine ReadsAt.again (.nextThen heos le_rfl fun _ => ?_) (mul_assoc (tok k) _ _)
        (fun w hw => ?_) (fun z hz => cons_mem_tok_mul.mpr ⟨rfl, (hcons hz).2⟩) hnil (Or.inr hop)
      · refine (hterm.mono (by omega) subset_rfl).bind (fun t => ih (by omega) (.mk op t :: done))
          fun K hK => ?_
        exact avoids_kstar_mul avoids_op_mul (hK.mono Set.subset_union_left)
      · obtain ⟨rest, rfl, hrest⟩ := mem_tok_mul.mp hw
        exact Language.append_mem_mul (cons_mem_op.mpr ⟨hop, rfl⟩) hrest
    | none =>
      refine .done (fun z hz => ?_) hnil
      have hop := (hcons hz).1
      rw [hk] at hop
      cases hop

/-- `term (op term)*` -/
theorem reads_exprOf (hterm : Reads n term (lang .term) termGoesOn) :
    Reads n (exprOf term n) (lang .expression) exprGoesOn := by
  rw [lang_expression]
  refine hterm.bind (fun t => (reads_operandsFrom hterm le_rfl []).map) fun K hK => ?_
  exact avoids_kstar_mul avoids_op_mul (hK.mono Set.subset_union_left)

/-- `'(' expression ')'` -/
theorem reads_parenOf (hexpr : Reads m expr (lang .expression) exprGoesOn) (hn : n ≤ m + 1) :
    Reads n (parenOf expr) (sym .leftParen * (lang .expression * sym .rightParen)) ∅ := by
  refine .discardThen (by decide) hn fun _ => ?_
  refine hexpr.bind (fun inner => .close (by decide)) fun K _ => avoids_tok_mul ?_
  exact notMem_exprGoesOn _ (by decide)

/-- `'[' expression ']'` -/
theorem reads_subscriptOf (hexpr : Reads m expr (lang .expression) exprGoesOn) (hn : n ≤ m + 1) :
    Reads n (subscriptOf expr) (sym .leftBracket * (lang .expression * sym .rightBracket)) ∅ := by
  refine .discardThen (by decide) hn fun _ => ?_
  refine hexpr.bind (fun inner => .close (by decide)) fun K _ => avoids_tok_mul ?_
  exact notMem_exprGoesOn _ (by decide)

end

/-- Expressions begin as terms do. -/
theorem cons_mem_expression {k : Kind} {z : List Kind} (h : k :: z ∈ lang .expression) :
    ∃ u, k :: u ∈ lang .term := by
  rw [lang_expression] at h
  rcases cons_mem_mul h with ⟨u, v, -, hu, -⟩ | ⟨hempty, -⟩
  · exact ⟨u, hu⟩
  · exact absurd hempty nil_notMem_term

theorem nil_notMem_expression : [] ∉ lang .expression := by
  rw [lang_expression]
  exact nil_notMem_mul nil_notMem_term

/-- What ends an argument list or stands behind a `return` does not begin an expression. -/
theorem ne_of_cons_mem_expression {k : Kind} {z : List Kind} (h : k :: z ∈ lang .expression) :
    k ≠ .symbol .rightParen ∧ k ≠ .symbol .semicolon := by
  obtain ⟨u, hu⟩ := cons_mem_expression h
  rw [cons_mem_term] at hu
  constructor
  · rintro rfl
    simp at hu
  · rintro rfl
    simp at hu

/-- A list with commas in front of a closing parenthesis, which begins no item. -/
theorem reads_listBefore {α : Type} {item : Reading α} {L : Language Kind} [Productive L]
    (hitem : Reads n item L A) (hcomma : Kind.symbol .comma ∉ A)
    (hclose : Kind.symbol .rightParen ∉ A) (hL : ∀ z, .symbol .rightParen :: z ∉ L)
    (hnil : [] ∉ L) :
    Reads n (Reading.peekKind >>= fun k => if k = .symbol .rightParen then pure []
      else separated item n)
      (1 + L * (sym .comma * L)∗) {k | k ≠ .symbol .rightParen} := by
  refine (Reads.separatedFrom hitem hcomma le_rfl []).optionBefore ?_ (.pure _) (fun z hz => ?_)
    (nil_notMem_mul hnil)
  · rintro (h | h)
    · cases h
    · exact hclose h
  · rcases cons_mem_mul hz with ⟨u, v, -, hu, -⟩ | ⟨hempty, -⟩
    · exact hL u hu
    · exact hnil hempty

section
variable {expr : Reading Expr}

/-- `[expression (',' expression)*]` -/
theorem reads_argsOf (hexpr : Reads n expr (lang .expression) exprGoesOn) :
    Reads n (argsOf expr n) (lang .expressionList) {k | k ≠ .symbol .rightParen} := by
  rw [lang_expressionList]
  refine reads_listBefore hexpr ?_ ?_ (fun z hz => (ne_of_cons_mem_expression hz).1 rfl)
    nil_notMem_expression
  · exact notMem_exprGoesOn _ (by decide)
  · exact notMem_exprGoesOn _ (by decide)

/-- What `callOf` reads behind the first name. -/
def callRest (expr : Reading Expr) (fuel : Nat) (first : Ident) : Reading Call := do
  let (receiver, name) ←
    match ← Reading.accept (.symbol .dot) with
    | some _ => pure (some first, ← ident)
    | none => pure (none, first)
  let paren ← Reading.expect (.symbol .leftParen)
  let args ← argsOf expr fuel
  discard <| Reading.expect (.symbol .rightParen)
  return .mk receiver name paren.span args

theorem callOf_eq (expr : Reading Expr) (fuel : Nat) :
    callOf expr fuel = ident >>= callRest expr fuel := rfl

/-- `['.' identifier] '(' arguments ')'` -/
theorem reads_callRest (hexpr : Reads n expr (lang .expression) exprGoesOn) (first : Ident) :
    Reads n (callRest expr n first)
      ((sym .dot * tok .ident + 1) * (sym .leftParen * (lang .expressionList * sym .rightParen)))
        ∅ := by
  have harguments (receiver : Option Ident) (name : Ident) :
      Reads n (do
        let paren ← Reading.expect (.symbol .leftParen)
        let args ← argsOf expr n
        discard <| Reading.expect (.symbol .rightParen)
        return Call.mk receiver name paren.span args)
      (sym .leftParen * (lang .expressionList * sym .rightParen)) ∅ := by
    refine .expectThen (by decide) n.le_succ fun paren => ?_
    exact (reads_argsOf hexpr).bind (fun args => .close (by decide)) fun K _ =>
      avoids_tok_mul (by simp)
  rw [add_mul, one_mul, mul_assoc]
  refine .acceptThen (by decide) n.le_succ (fun _ => ?_) (harguments none first) fun K _ => ?_
  · exact reads_ident.bind (fun name => harguments (some first) name) fun K _ => avoids_empty
  · rw [mul_assoc]
    exact avoids_tok_mul (by simp)

/-- `[identifier '.'] identifier '(' arguments ')'` -/
theorem reads_callOf (hexpr : Reads m expr (lang .expression) exprGoesOn) (hn : n ≤ m + 1) :
    Reads n (callOf expr m) (lang .subroutineCall) ∅ := by
  rw [callOf_eq, lang_call_eq]
  exact reads_ident.bindLess nil_notMem_tok hn (fun first => reads_callRest hexpr first) fun _ _ =>
    avoids_empty

end

/-- What may stand behind the first name of a call, up to its end. -/
def callTail : Language Kind :=
  (sym .dot * tok .ident + 1) * (sym .leftParen * (lang .expressionList * sym .rightParen))

/-- What may stand behind the name of an array. -/
def subscriptTail : Language Kind := sym .leftBracket * (lang .expression * sym .rightBracket)

theorem cons_mem_callTail {k : Kind} {z : List Kind} {K : Language Kind}
    (h : k :: z ∈ callTail * K) : k = .symbol .dot ∨ k = .symbol .leftParen := by
  unfold callTail at h
  rw [add_mul, one_mul, add_mul, mul_assoc, mul_assoc, mul_assoc] at h
  rcases h with h | h
  · exact Or.inl (cons_mem_tok_mul.mp h).1
  · exact Or.inr (cons_mem_tok_mul.mp h).1

theorem cons_mem_subscriptTail {k : Kind} {z : List Kind} {K : Language Kind}
    (h : k :: z ∈ subscriptTail * K) : k = .symbol .leftBracket := by
  unfold subscriptTail at h
  rw [mul_assoc] at h
  exact (cons_mem_tok_mul.mp h).1

/-- What may stand behind an identifier that begins a term. -/
theorem ident_cons_mem {K : Language Kind} {z : List Kind} (h : .ident :: z ∈ lang .term * K) :
    z ∈ K ∨ z ∈ subscriptTail * K ∨ z ∈ callTail * K := by
  rcases cons_mem_mul h with ⟨u, v, rfl, hu, hv⟩ | ⟨hempty, -⟩
  · rcases cons_mem_term.mp hu with ⟨rfl, -⟩ | ⟨-, hu | hu⟩ | ⟨h, -⟩ | ⟨h | h, -⟩
    · exact Or.inl hv
    · exact Or.inr (Or.inl (Language.append_mem_mul hu hv))
    · exact Or.inr (Or.inr (Language.append_mem_mul hu hv))
    · cases h
    · cases h
    · cases h
  · exact absurd hempty nil_notMem_term

/-- A term that begins with an identifier, where a second token is in view. -/
theorem readsAtTwo_ident {k : Kind} {L : Language Kind} {f : Ident → Reading Term}
    (hf : ∀ x, Reads m (f x) L termGoesOn) (hn : n ≤ m + 1) (hL : ∀ w ∈ L, .ident :: w ∈ lang .term)
    (hexact : ∀ K, Avoids K termGoesOn → ∀ z,
      k :: z ∈ K ∨ k :: z ∈ subscriptTail * K ∨ k :: z ∈ callTail * K → k :: z ∈ L * K) :
    ReadsAtTwo .ident k n (ident >>= f) (lang .term) termGoesOn := by
  unfold ident
  rw [bind_assoc]
  refine .expectThen (by decide) (fun t => ?_) hn hL fun K hK z hz =>
    hexact K hK z (ident_cons_mem hz)
  rw [pure_bind]
  exact hf _

/-- A term that begins with an identifier.  The token behind the identifier decides. -/
theorem readsAt_ident {expr : Reading Expr} (hexpr : Reads m expr (lang .expression) exprGoesOn)
    (hn : n ≤ m + 1) :
    ReadsAt .ident n (do
      match ← Reading.peekSecond with
      | .symbol .leftBracket =>
        let array ← ident
        return Term.element array (← subscriptOf expr)
      | .symbol .leftParen | .symbol .dot => return .call (← callOf expr m)
      | _ => return .var (← ident)) (lang .term) termGoesOn := by
  have hcall (k : Kind) (hk : k = .symbol .leftParen ∨ k = .symbol .dot) :
      ReadsAtTwo .ident k n (do return Term.call (← callOf expr m)) (lang .term) termGoesOn := by
    rw [callOf_eq, bind_assoc]
    refine readsAtTwo_ident (fun x => (reads_callRest hexpr x).map.mono le_rfl (Set.empty_subset _))
      hn (fun w hw => cons_mem_term.mpr (Or.inr (Or.inl ⟨rfl, Or.inr hw⟩))) fun K hK z hz => ?_
    rcases hz with hz | hz | hz
    · refine absurd ?_ (hK k z hz)
      rcases hk with rfl | rfl <;> simp [termGoesOn]
    · rcases hk with rfl | rfl <;> cases cons_mem_subscriptTail hz
    · exact hz
  refine .peekSecond (by decide) (cons_mem_term.mpr (Or.inl ⟨rfl, by simp⟩)) fun k => ?_
  split
  · refine readsAtTwo_ident (fun x => ?_) hn
      (fun w hw => cons_mem_term.mpr (Or.inr (Or.inl ⟨rfl, Or.inl hw⟩))) fun K hK z hz => ?_
    · exact (reads_subscriptOf hexpr (Nat.le_succ m)).map.mono le_rfl (Set.empty_subset _)
    · rcases hz with hz | hz | hz
      · exact absurd (Or.inl rfl) (hK _ z hz)
      · exact hz
      · rcases cons_mem_callTail hz with h | h <;> cases h
  · exact hcall _ (Or.inl rfl)
  · exact hcall _ (Or.inr rfl)
  · next hbracket hparen hdot =>
    refine readsAtTwo_ident (fun x => .pure _) hn (fun w hw => ?_) fun K _ z hz => ?_
    · rw [Language.mem_one] at hw
      rw [hw]
      exact cons_mem_term.mpr (Or.inl ⟨rfl, by simp⟩)
    · rw [one_mul]
      rcases hz with hz | hz | hz
      · exact hz
      · exact absurd (cons_mem_subscriptTail hz) hbracket
      · rcases cons_mem_callTail hz with h | h
        · exact absurd h hdot
        · exact absurd h hparen

/-- A term that is a literal. -/
theorem readsAt_literalTerm {k : Kind} (hliteral : ∀ t : Token, t.kind = k → (literalOf? t).isSome)
    (hk : (∃ v, k = .int v) ∨ k = .string ∨ k = .keyword .true ∨ k = .keyword .false ∨
      k = .keyword .null ∨ k = .keyword .this) :
    ReadsAt k n (do return Term.literal (← literal)) (lang .term) termGoesOn := by
  have heos : k ≠ .eos := by
    rintro rfl
    simp at hk
  have hmem : [k] ∈ lang .term := by
    refine cons_mem_term.mpr (Or.inl ⟨rfl, ?_⟩)
    rcases hk with h | h | h | h | h | h <;> simp [h]
  have hread : ReadsAt k n (do return Term.literal (← literal)) (tok k) termGoesOn :=
    fun s K t rest hitems ht hlength hK _ =>
      (readsAt_literal heos hliteral).map s K t rest hitems ht hlength hK avoids_empty
  refine hread.part ?_ nil_notMem_term fun z hz => ?_
  · rintro w ⟨k', rfl, rfl⟩
    exact hmem
  · rcases cons_mem_term.mp hz with ⟨rfl, -⟩ | ⟨rfl, -⟩ | ⟨rfl, -⟩ | ⟨rfl | rfl, -⟩
    · exact ⟨k, rfl, rfl⟩
    · simp at hk
    · simp at hk
    · simp at hk
    · simp at hk

/-- `literal | variable | variable subscript | call | '(' expression ')' | unaryOp term` -/
theorem reads_termAt : Reads n (termAt n) (lang .term) termGoesOn := by
  induction n with
  | zero => exact .zero
  | succ n ih =>
    have hexpr := reads_exprOf ih
    have hunary (k : Kind) (hk : k = .symbol .minus ∨ k = .symbol .tilde) (op : UnaryOp) :
        ReadsAt k (n + 1) (do
          discard Reading.next
          return Term.unary op (← termAt n)) (lang .term) termGoesOn := by
      have heos : k ≠ .eos := by
        rintro rfl
        simp at hk
      refine (ReadsAt.nextThen heos le_rfl fun _ => ih.map).part (fun w hw => ?_) nil_notMem_term
        fun z hz => ?_
      · obtain ⟨rest, rfl, hrest⟩ := mem_tok_mul.mp hw
        exact cons_mem_term.mpr (Or.inr (Or.inr (Or.inr ⟨hk, hrest⟩)))
      · refine cons_mem_tok_mul.mpr ⟨rfl, ?_⟩
        rcases cons_mem_term.mp hz with ⟨-, h⟩ | ⟨rfl, -⟩ | ⟨rfl, -⟩ | ⟨-, h⟩
        · rcases hk with rfl | rfl <;> simp at h
        · simp at hk
        · simp at hk
        · exact h
    rw [termAt]
    refine .peekKind fun k => ?_
    split
    · exact readsAt_literalTerm (fun t ht => by simp [literalOf?, ht]) (by simp)
    · exact readsAt_literalTerm (fun t ht => by simp [literalOf?, ht]) (by simp)
    · exact readsAt_literalTerm (fun t ht => by simp [literalOf?, ht]) (by simp)
    · exact readsAt_literalTerm (fun t ht => by simp [literalOf?, ht]) (by simp)
    · exact readsAt_literalTerm (fun t ht => by simp [literalOf?, ht]) (by simp)
    · exact readsAt_literalTerm (fun t ht => by simp [literalOf?, ht]) (by simp)
    · exact readsAt_ident hexpr le_rfl
    · refine ReadsAt.part (Reads.at (Reads.mono (Reads.map (reads_parenOf hexpr le_rfl)) le_rfl
        (Set.empty_subset _))) (fun w hw => ?_) nil_notMem_term fun z hz => ?_
      · obtain ⟨rest, rfl, hrest⟩ := mem_tok_mul.mp hw
        exact cons_mem_term.mpr (Or.inr (Or.inr (Or.inl ⟨rfl, hrest⟩)))
      · refine cons_mem_tok_mul.mpr ⟨rfl, ?_⟩
        rcases cons_mem_term.mp hz with ⟨-, h⟩ | ⟨h, -⟩ | ⟨-, h⟩ | ⟨h, -⟩
        · simp at h
        · cases h
        · exact h
        · simp at h
    · exact hunary _ (Or.inl rfl) _
    · exact hunary _ (Or.inr rfl) _
    · next hint hstring htrue hfalse hnull hthis hident hparen hminus htilde =>
      refine .unexpected fun K _ z hz => ?_
      rcases cons_mem_mul hz with ⟨u, v, -, hu, -⟩ | ⟨hempty, -⟩
      · rcases cons_mem_term.mp hu with ⟨-, ⟨v, h⟩ | h | h | h | h | h | h⟩ | ⟨h, -⟩ | ⟨h, -⟩
          | ⟨h | h, -⟩
        · exact hint v h
        · exact hstring h
        · exact htrue h
        · exact hfalse h
        · exact hnull h
        · exact hthis h
        · exact hident h
        · exact hident h
        · exact hparen h
        · exact hminus h
        · exact htilde h
      · exact nil_notMem_term hempty

/-- An expression. -/
theorem reads_exprAt : Reads n (exprAt n) (lang .expression) exprGoesOn := reads_exprOf reads_termAt

/-! ### Statements -/

/-- Behind a statement, an alternative goes on with it. -/
def statementGoesOn : Set Kind := {.keyword .else}

section
variable {expr : Reading Expr} {block : Reading (List Statement)} {statement : Reading Statement}

/-- `'let' identifier [subscript] '=' expression ';'` -/
theorem reads_letOf (hexpr : Reads m expr (lang .expression) exprGoesOn) (hn : n ≤ m + 1) :
    Reads n (letOf expr) (lang .letStatement) ∅ := by
  have hvalue (make : Expr → Statement) :
      Reads m (do
        discard <| Reading.expect (.symbol .equals)
        let value ← expr
        discard <| Reading.expect (.symbol .semicolon)
        return make value)
      (sym .equals * (lang .expression * sym .semicolon)) ∅ := by
    refine .discardThen (by decide) m.le_succ fun _ => ?_
    refine hexpr.bind (fun value => .close (by decide)) fun K _ => avoids_tok_mul ?_
    exact notMem_exprGoesOn _ (by decide)
  rw [lang_letStatement, add_comm, add_mul, one_mul]
  refine .discardThen (by decide) hn fun _ => ?_
  refine reads_ident.bind (fun name => ?_) fun K _ => avoids_empty
  refine .choice (c := fun k => k = .symbol .leftBracket) ?_ ?_ (fun K _ => ?_) fun K _ => ?_
  · rw [map_eq_pure_bind, bind_assoc]
    refine (reads_subscriptOf hexpr (Nat.le_succ m)).bind (fun subscript => ?_) fun K _ =>
      avoids_empty
    rw [pure_bind]
    exact hvalue (.assignElement name subscript)
  · rw [pure_bind]
    exact hvalue (.assign name)
  · rw [mul_assoc, mul_assoc]
    refine avoids_tok_mul ?_
    simp
  · rw [mul_assoc]
    refine avoids_tok_mul ?_
    simp

/-- `'return' [expression] ';'` -/
theorem reads_returnOf (hexpr : Reads m expr (lang .expression) exprGoesOn) (hn : n ≤ m + 1) :
    Reads n (returnOf expr) (lang .returnStatement) ∅ := by
  rw [lang_returnStatement, add_mul, one_mul]
  refine .discardThen (by decide) hn fun _ => ?_
  refine .choice (c := fun k => k = .symbol .semicolon) ?_ ?_ (fun K _ => ?_) fun K _ => ?_
  · rw [pure_bind]
    exact .close (by decide)
  · rw [map_eq_pure_bind, bind_assoc]
    refine hexpr.bind (fun value => ?_) fun K _ => avoids_tok_mul ?_
    · rw [pure_bind]
      exact .close (by decide)
    · exact notMem_exprGoesOn _ (by decide)
  · refine avoids_tok_mul ?_
    simp
  · rw [mul_assoc]
    refine avoids_mul (fun k z hz hk => ?_) fun h => absurd h nil_notMem_expression
    exact (ne_of_cons_mem_expression hz).2 hk

/-- `'do' call ';'` -/
theorem reads_doOf {call : Reading Call} (hcall : Reads m call (lang .subroutineCall) ∅)
    (hn : n ≤ m + 1) : Reads n (doOf call) (lang .doStatement) ∅ := by
  rw [lang_doStatement]
  refine .discardThen (by decide) hn fun _ => ?_
  exact hcall.bind (fun call => .close (by decide)) fun K _ => avoids_empty

/-- `'{' statements '}'` as a part of a statement. -/
def blockTail : Language Kind := sym .leftBrace * (lang .statements * sym .rightBrace)

instance : Productive blockTail := by
  unfold blockTail
  infer_instance

/-- `'while' '(' expression ')' block` -/
theorem reads_whileOf (hexpr : Reads m expr (lang .expression) exprGoesOn)
    (hblock : Reads m block blockTail ∅) (hn : n ≤ m + 1) :
    Reads n (whileOf expr block) (lang .whileStatement) ∅ := by
  have hlang : lang .whileStatement =
      kw .while * (sym .leftParen * (lang .expression * sym .rightParen) * blockTail) := by
    rw [lang_whileStatement, blockTail]
    simp only [mul_assoc]
  rw [hlang]
  refine .discardThen (by decide) hn fun _ => ?_
  exact (reads_parenOf hexpr (Nat.le_succ m)).bind (fun condition => hblock.map) fun K _ =>
    avoids_empty

/-- `'if' '(' expression ')' block ['else' block]` -/
theorem reads_ifOf (hexpr : Reads m expr (lang .expression) exprGoesOn)
    (hblock : Reads m block blockTail ∅) (hn : n ≤ m + 1) :
    Reads n (ifOf expr block) (lang .ifStatement) statementGoesOn := by
  have hlang : lang .ifStatement = kw .if * (sym .leftParen * (lang .expression * sym .rightParen)
      * (blockTail * (kw .else * blockTail + 1))) := by
    rw [lang_ifStatement, blockTail, add_comm 1]
    simp only [mul_assoc]
  rw [hlang]
  refine .discardThen (by decide) hn fun _ => ?_
  refine (reads_parenOf hexpr (Nat.le_succ m)).bind (fun condition => ?_) fun K _ => avoids_empty
  refine hblock.bind (fun body => ?_) fun K _ => avoids_empty
  refine .acceptThen (by decide) m.le_succ (fun _ => ?_) (.pure _) fun K hK => ?_
  · exact hblock.map.mono le_rfl (Set.empty_subset _)
  · rwa [one_mul]

end

/-! ### Nesting -/

theorem beginsStatement_eq (k : Kind) : beginsStatement k = (statementRule? k).isSome := by
  cases k with
  | keyword w => cases w <;> rfl
  | symbol | int | string | ident | eos => rfl

theorem beginsStatement_of_cons_mem {k : Kind} {z : List Kind} (h : k :: z ∈ lang .statement) :
    beginsStatement k = true := by
  obtain ⟨r, hr, -⟩ := cons_mem_statement h
  rw [beginsStatement_eq, hr]
  rfl

/-- The kind in view tells which rule a statement has. -/
theorem readsAt_statement {k : Kind} {r : Rule} {p : Reading Statement}
    (hr : statementRule? k = some r) (h : Reads n p (lang r) statementGoesOn) :
    ReadsAt k n p (lang .statement) statementGoesOn := by
  refine h.at.part (fun w hw => mem_statement hr hw) nil_notMem_statement fun z hz => ?_
  obtain ⟨r', hr', hz⟩ := cons_mem_statement hz
  cases hr.symm.trans hr'
  exact hz

section
variable {statement : Reading Statement}

/-- `statement*` -/
theorem reads_manyStatements (hstatement : Reads n statement (lang .statement) statementGoesOn) :
    Reads n (many beginsStatement statement n) (lang .statements)
      (statementGoesOn ∪ {k | beginsStatement k = true}) := by
  rw [lang_statements]
  refine .whileFrom hstatement le_rfl nil_notMem_statement
    (fun k z hz => beginsStatement_of_cons_mem hz) ?_ []
  rintro k rfl
  rfl

/-- `'{' statement* '}'` -/
theorem reads_blockOf (hstatement : Reads n statement (lang .statement) statementGoesOn) :
    Reads n (blockOf statement n) blockTail ∅ := by
  refine .discardThen (by decide) n.le_succ fun _ => ?_
  refine (reads_manyStatements hstatement).bind (fun body => .close (by decide)) fun K _ =>
    avoids_tok_mul ?_
  simp [statementGoesOn, beginsStatement]

end

/-- `let | if | while | do | return` -/
theorem reads_statementAt : Reads n (statementAt n) (lang .statement) statementGoesOn := by
  induction n with
  | zero => exact .zero
  | succ n ih =>
    have hblock := reads_blockOf ih
    have hcall := reads_callOf (reads_exprAt (n := n)) (Nat.le_succ n)
    rw [statementAt]
    refine .peekKind fun k => ?_
    split
    · exact readsAt_statement rfl
        ((reads_letOf reads_exprAt le_rfl).mono le_rfl (Set.empty_subset _))
    · exact readsAt_statement rfl (reads_ifOf reads_exprAt hblock le_rfl)
    · exact readsAt_statement rfl
        ((reads_whileOf reads_exprAt hblock le_rfl).mono le_rfl (Set.empty_subset _))
    · exact readsAt_statement rfl ((reads_doOf hcall le_rfl).mono le_rfl (Set.empty_subset _))
    · exact readsAt_statement rfl
        ((reads_returnOf reads_exprAt le_rfl).mono le_rfl (Set.empty_subset _))
    · next hlet hif hwhile hdo hreturn =>
      refine .unexpected fun K _ z hz => ?_
      rcases cons_mem_mul hz with ⟨u, v, -, hu, -⟩ | ⟨hempty, -⟩
      · obtain ⟨r, hr, -⟩ := cons_mem_statement hu
        unfold statementRule? at hr
        split at hr
        · exact hlet rfl
        · exact hif rfl
        · exact hwhile rfl
        · exact hdo rfl
        · exact hreturn rfl
        · cases hr
      · exact nil_notMem_statement hempty

/-! ### Declarations -/

/-- `identifier (',' identifier)*` -/
theorem reads_namesAt :
    Reads n (namesAt n) (tok .ident * (sym .comma * tok .ident)∗) {.symbol .comma} := by
  have hread := Reads.separatedFrom (reads_ident (n := n)) (by simp) le_rfl []
  rwa [insert_empty_eq] at hread

/-- `type identifier` -/
theorem reads_parameter : Reads n parameter (lang .type * tok .ident) ∅ :=
  reads_typeName.bind (fun _ => reads_ident.map) fun _ _ => avoids_empty

/-- `'var' type names ';'` -/
theorem reads_varDecAt : Reads n (varDecAt n) (lang .varDec) ∅ := by
  rw [lang_varDec]
  refine .discardThen (by decide) n.le_succ fun _ => ?_
  refine reads_typeName.bind (fun type => ?_) fun _ _ => avoids_empty
  exact reads_namesAt.bind (fun names => .close (by decide)) fun _ _ => avoids_tok_mul (by simp)

theorem cons_mem_varDec {k : Kind} {z : List Kind} (h : k :: z ∈ lang .varDec) :
    k = .keyword .var := by
  rw [lang_varDec] at h
  exact (cons_mem_tok_mul.mp h).1

theorem nil_notMem_varDec : [] ∉ lang .varDec := by
  rw [lang_varDec]
  exact nil_notMem_tok_mul

/-- `'{' varDec* statement* '}'` -/
theorem reads_bodyAt : Reads n (bodyAt n) (lang .subroutineBody) ∅ := by
  rw [lang_subroutineBody]
  refine .discardThen (by decide) n.le_succ fun _ => ?_
  have hlocals : Reads n (many (· == .keyword .var) (varDecAt n) n) ((lang .varDec)∗) _ :=
    .whileFrom reads_varDecAt le_rfl nil_notMem_varDec (fun k z hz => by
      rw [cons_mem_varDec hz]; rfl)
      (fun k hk => absurd hk (Set.notMem_empty k)) []
  refine hlocals.bind (fun locals => ?_) fun K hK => ?_
  · exact (reads_manyStatements reads_statementAt).bind (fun body => .close (by decide))
      fun K _ => avoids_tok_mul (by simp [statementGoesOn, beginsStatement])
  · rw [lang_statements, mul_assoc]
    refine avoids_kstar_mul (fun k z hz hk => ?_) (avoids_tok_mul (by simp))
    have hbegins := beginsStatement_of_cons_mem hz
    rw [Set.empty_union, Set.mem_ofPred_eq, beq_iff_eq] at hk
    rw [hk] at hbegins
    cases hbegins

/-- `[parameter (',' parameter)*]` -/
theorem reads_parametersAt :
    Reads n (parametersAt n) (lang .parameterList) {k | k ≠ .symbol .rightParen} := by
  rw [lang_parameterList]
  refine reads_listBefore reads_parameter (Set.notMem_empty _) (Set.notMem_empty _) (fun z hz => ?_)
    (nil_notMem_mul nil_notMem_type)
  rcases cons_mem_mul hz with ⟨u, v, -, hu, -⟩ | ⟨hempty, -⟩
  · simp [cons_mem_type] at hu
  · exact nil_notMem_type hempty

theorem cons_mem_subroutineKind {k : Kind} {z : List Kind} :
    k :: z ∈ kw .constructor + kw .function + kw .method ↔ (subroutineKind? k).isSome ∧ z = [] := by
  simp only [Language.mem_add, cons_mem_tok, ← or_and_right]
  refine and_congr_left' ?_
  cases k with
  | keyword w => cases w <;> simp [subroutineKind?]
  | symbol | int | string | ident | eos => simp [subroutineKind?]

theorem nil_notMem_subroutineKind : [] ∉ kw .constructor + kw .function + kw .method := by
  rintro ((h | h) | h) <;> exact nil_notMem_tok h

/-- `('constructor' | 'function' | 'method') returnType identifier '(' parameters ')' body` -/
theorem reads_subroutineAt : Reads n (subroutineAt n) (lang .subroutineDec) ∅ := by
  rw [lang_subroutineDec]
  refine .peekKind fun k => ?_
  cases hk : subroutineKind? k with
  | none =>
    refine .unexpected fun K _ z hz => ?_
    rw [mul_assoc] at hz
    rcases cons_mem_mul hz with ⟨u, v, -, hu, -⟩ | ⟨hempty, -⟩
    · have hsome := (cons_mem_subroutineKind.mp hu).1
      rw [hk] at hsome
      cases hsome
    · exact nil_notMem_subroutineKind hempty
  | some kind =>
    refine .anyThen (m := n) ?_ (cons_mem_subroutineKind.mpr ⟨Option.isSome_of_eq_some hk, rfl⟩)
      (fun z hz => (cons_mem_subroutineKind.mp hz).2) nil_notMem_subroutineKind (fun _ => ?_)
      (Nat.le_succ n)
    · rintro rfl
      cases hk
    · refine reads_returnType.bind (fun returns => ?_) fun _ _ => avoids_empty
      refine reads_ident.bind (fun name => ?_) fun _ _ => avoids_empty
      refine .discardThen (by decide) n.le_succ fun _ => ?_
      refine reads_parametersAt.bind (fun parameters => ?_) fun _ _ => ?_
      · exact .discardThen (by decide) n.le_succ fun _ => reads_bodyAt.map
      · rw [mul_assoc]
        exact avoids_tok_mul (by simp)

theorem cons_mem_classVarKind {k : Kind} {z : List Kind} :
    k :: z ∈ kw .static + kw .field ↔ (classVarKind? k).isSome ∧ z = [] := by
  simp only [Language.mem_add, cons_mem_tok, ← or_and_right]
  refine and_congr_left' ?_
  cases k with
  | keyword w => cases w <;> simp [classVarKind?]
  | symbol | int | string | ident | eos => simp [classVarKind?]

theorem nil_notMem_classVarKind : [] ∉ kw .static + kw .field := by
  rintro (h | h) <;> exact nil_notMem_tok h

/-- `('static' | 'field') type names ';'` -/
theorem reads_classVarDecAt : Reads n (classVarDecAt n) (lang .classVarDec) ∅ := by
  rw [lang_classVarDec]
  refine .peekKind fun k => ?_
  cases hk : classVarKind? k with
  | none =>
    refine .unexpected fun K _ z hz => ?_
    rw [mul_assoc] at hz
    rcases cons_mem_mul hz with ⟨u, v, -, hu, -⟩ | ⟨hempty, -⟩
    · have hsome := (cons_mem_classVarKind.mp hu).1
      rw [hk] at hsome
      cases hsome
    · exact nil_notMem_classVarKind hempty
  | some kind =>
    refine .anyThen (m := n) ?_ (cons_mem_classVarKind.mpr ⟨Option.isSome_of_eq_some hk, rfl⟩)
      (fun z hz => (cons_mem_classVarKind.mp hz).2) nil_notMem_classVarKind (fun _ => ?_)
      (Nat.le_succ n)
    · rintro rfl
      cases hk
    · refine reads_typeName.bind (fun type => ?_) fun _ _ => avoids_empty
      exact reads_namesAt.bind (fun names => .close (by decide)) fun _ _ => avoids_tok_mul (by simp)

theorem cons_mem_classVarDec {k : Kind} {z : List Kind} (h : k :: z ∈ lang .classVarDec) :
    (classVarKind? k).isSome := by
  rw [lang_classVarDec] at h
  rcases cons_mem_mul h with ⟨u, v, -, hu, -⟩ | ⟨hempty, -⟩
  · exact (cons_mem_classVarKind.mp hu).1
  · exact absurd hempty nil_notMem_classVarKind

theorem cons_mem_subroutineDec {k : Kind} {z : List Kind} (h : k :: z ∈ lang .subroutineDec) :
    (subroutineKind? k).isSome := by
  rw [lang_subroutineDec] at h
  rcases cons_mem_mul h with ⟨u, v, -, hu, -⟩ | ⟨hempty, -⟩
  · exact (cons_mem_subroutineKind.mp hu).1
  · exact absurd hempty nil_notMem_subroutineKind

/-- `'class' identifier '{' classVarDec* subroutine* '}'` -/
theorem reads_classAt : Reads n (classAt n) (lang .class) ∅ := by
  rw [lang_class]
  refine .discardThen (by decide) n.le_succ fun _ => ?_
  refine reads_ident.bind (fun name => ?_) fun K _ => avoids_empty
  refine .discardThen (by decide) n.le_succ fun _ => ?_
  have hvars : Reads n (many (fun k => (classVarKind? k).isSome) (classVarDecAt n) n)
      ((lang .classVarDec)∗) (∅ ∪ {k | (classVarKind? k).isSome = true}) := by
    refine .whileFrom reads_classVarDecAt le_rfl ?_ (fun k z hz => cons_mem_classVarDec hz)
      (fun k hk => absurd hk (Set.notMem_empty k)) []
    rw [lang_classVarDec]
    exact nil_notMem_mul nil_notMem_classVarKind
  have hsubroutines :
      Reads n (many (fun k => (subroutineKind? k).isSome) (subroutineAt n) n)
      ((lang .subroutineDec)∗)
        (∅ ∪ {k | (subroutineKind? k).isSome = true}) := by
    refine .whileFrom reads_subroutineAt le_rfl ?_ (fun k z hz => cons_mem_subroutineDec hz)
      (fun k hk => absurd hk (Set.notMem_empty k)) []
    rw [lang_subroutineDec]
    exact nil_notMem_mul nil_notMem_subroutineKind
  refine hvars.bind (fun classVars => ?_) fun K hK => ?_
  · exact hsubroutines.bind (fun subroutines => .close (by decide)) fun K _ =>
      avoids_tok_mul (by simp [subroutineKind?])
  · rw [mul_assoc]
    refine avoids_kstar_mul (fun k z hz hk => ?_) (avoids_tok_mul (by simp [classVarKind?]))
    rw [Set.empty_union, Set.mem_ofPred_eq] at hk
    obtain ⟨kind, hkind⟩ := Option.isSome_iff_exists.mp (cons_mem_subroutineDec hz)
    unfold subroutineKind? at hkind
    split at hkind <;> simp [classVarKind?] at hk hkind

end JackToolchain.Jack
