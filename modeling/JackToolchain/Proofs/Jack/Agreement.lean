import JackToolchain.Jack.Parser
import JackToolchain.Proofs.Jack.Items
import JackToolchain.Proofs.Jack.Unplaced

/-!
# Streams of the same lexemes are read alike

Two streams with the same lexemes in the same order differ in the places of their tokens.  A reader
*agrees* with another one if on such streams they come to the same, places aside: to results that
are equal in the view one has of them, with the same lexemes left, or to the same error
(`Reading.Agrees`).

The sources behind two streams differ in length, and so does the fuel that they are read with.  So a
reader is compared with itself on more fuel, and where it runs out of fuel, nothing is said.
-/

namespace JackToolchain.Jack

/-! ### Streams -/

/-- What an item is, without its place. -/
def Item.unplaced : Item → Except LexFault Lexeme
  | .ok t => .ok t.toLexeme
  | .error e => .error e.fault

/-- Two streams have the same items left, places aside. -/
def TokenStream.Alike (s s' : TokenStream) : Prop :=
  s.items.map Item.unplaced = s'.items.map Item.unplaced

namespace TokenStream

variable {s s' : TokenStream}

theorem Alike.of_items {r r' : TokenStream} (h : s.Alike s') (hr : r.items = s.items)
    (hr' : r'.items = s'.items) : r.Alike r' := by
  unfold Alike
  rwa [hr, hr']

theorem Alike.advance (h : s.Alike s') : s.advance.Alike s'.advance := by
  unfold Alike at h ⊢
  rw [items_advance_eq_tail, items_advance_eq_tail, List.map_tail, List.map_tail, h]

theorem Alike.looked (h : s.Alike s') : s.looked.Alike s'.looked :=
  h.of_items s.items_looked s'.items_looked

theorem Alike.lookedBehind (h : s.Alike s') : s.lookedBehind.Alike s'.lookedBehind :=
  h.of_items s.items_lookedBehind s'.items_lookedBehind

theorem Alike.head? (h : s.Alike s') :
    s.items.head?.map Item.unplaced = s'.items.head?.map Item.unplaced := by
  rw [← List.head?_map, ← List.head?_map, h]

end TokenStream

/-! ### Readers -/

/-- What two readers have come to is the same, in the view that one has of it; or the first one has
run out of fuel. -/
inductive SameResult {α β : Type} (view : α → β) :
    EStateM.Result SyntaxError TokenStream α → EStateM.Result SyntaxError TokenStream α → Prop
  | exhausted {t : TokenStream} {r : EStateM.Result SyntaxError TokenStream α} :
      SameResult view (.error .endOfSource t) r
  | ok {a a' : α} {t t' : TokenStream} : view a = view a' → t.Alike t' →
    SameResult view (.ok a t) (.ok a' t')
  | error {e e' : SyntaxError} {t t' : TokenStream} : e.unplaced = e'.unplaced →
      SameResult view (.error e t) (.error e' t')

/-- Two readers come to the same on streams of the same lexemes. -/
def Reading.Agrees {α β : Type} (view : α → β) (p p' : Reading α) : Prop :=
  ∀ s s' : TokenStream, s.Alike s' → SameResult view (p s) (p' s')

namespace Reading

variable {α β γ δ : Type} {view : α → β} {view' : γ → δ} {p p' : Reading α} {f f' : α → Reading γ}

theorem Agrees.pure {a a' : α} (h : view a = view a') : Agrees view (Pure.pure a) (Pure.pure a') :=
  fun _ _ hs => .ok h hs

theorem Agrees.throw {e e' : SyntaxError} (h : e.unplaced = e'.unplaced) :
    Agrees view (throw e : Reading α) (throw e') :=
  fun _ _ _ => .error h

theorem Agrees.exhausted : Agrees view Reading.exhausted p' := fun _ _ _ => .exhausted

/-- **Readers in a row.** -/
theorem Agrees.bind (h : Agrees view p p')
    (hf : ∀ a a', view a = view a' → Agrees view' (f a) (f' a')) :
    Agrees view' (p >>= f) (p' >>= f') := by
  intro s s' hs
  have hp := h s s' hs
  cases hr : p s with
  | ok a t =>
    rw [bind_of_ok hr]
    cases hr' : p' s' with
    | ok a' t' =>
      rw [hr, hr'] at hp
      rw [bind_of_ok hr']
      cases hp with
      | ok ha ht => exact hf a a' ha t t' ht
    | error e' t' =>
      rw [hr, hr'] at hp
      cases hp
  | error e t =>
    rw [bind_of_error hr]
    cases hr' : p' s' with
    | ok a' t' =>
      rw [hr, hr'] at hp
      cases hp
      exact .exhausted
    | error e' t' =>
      rw [hr, hr'] at hp
      rw [bind_of_error hr']
      cases hp with
      | exhausted => exact .exhausted
      | error he => exact .error he

/-- What is read may be seen in less detail. -/
theorem Agrees.mono {view₂ : α → γ} (h : Agrees view p p')
    (hview : ∀ a a', view a = view a' → view₂ a = view₂ a') : Agrees view₂ p p' := by
  intro s s' hs
  have hp := h s s' hs
  generalize p s = r at hp ⊢
  generalize p' s' = r' at hp ⊢
  cases hp with
  | exhausted => exact .exhausted
  | ok ha ht => exact .ok (hview _ _ ha) ht
  | error he => exact .error he

theorem Agrees.map {g g' : α → γ} (h : Agrees view p p')
    (hg : ∀ a a', view a = view a' → view' (g a) = view' (g' a')) :
    Agrees view' (g <$> p) (g' <$> p') := by
  rw [map_eq_pure_bind, map_eq_pure_bind]
  exact h.bind fun a a' ha => .pure (hg a a' ha)

theorem Agrees.discard (h : Agrees view p p') :
    Agrees (fun _ => ()) (Functor.discard p) (Functor.discard p') :=
  h.map fun _ _ _ => rfl

/-! ### Single tokens -/

theorem unplaced_lexical {e e' : LexError} (h : e.fault = e'.fault) :
    (SyntaxError.lexical e).unplaced = (SyntaxError.lexical e').unplaced := by
  rw [SyntaxError.unplaced, SyntaxError.unplaced, LexError.unplaced, LexError.unplaced, h]

theorem unplaced_token {t t' : Token} (h : t.toLexeme = t'.toLexeme) :
    t.unplaced = t'.unplaced := by
  unfold Token.unplaced
  rw [h]

theorem sameResult_ofItem {item item' : Option Item} {s s' : TokenStream}
    (h : item.map Item.unplaced = item'.map Item.unplaced) (hs : s.Alike s') :
    SameResult Token.toLexeme (ofItem item s) (ofItem item' s') := by
  cases item with
  | none => exact .exhausted
  | some item =>
    cases item' with
    | none => cases h
    | some item' =>
      replace h : item.unplaced = item'.unplaced := Option.some.inj h
      cases item with
      | error e =>
        cases item' with
        | error e' => exact .error (unplaced_lexical (Except.error.inj h))
        | ok t' => cases h
      | ok t =>
        cases item' with
        | error e' => cases h
        | ok t' => exact .ok (Except.ok.inj h) hs

theorem agrees_peek : Agrees Token.toLexeme peek peek := by
  intro s s' hs
  rw [peek_eq, peek_eq]
  exact sameResult_ofItem hs.head? hs.looked

theorem agrees_next : Agrees Token.toLexeme next next := by
  intro s s' hs
  rw [next_eq, next_eq]
  exact sameResult_ofItem hs.head? hs.advance

theorem agrees_peekKind : Agrees id peekKind peekKind :=
  agrees_peek.bind fun _ _ h => .pure (congrArg Lexeme.kind h)

theorem agrees_peekSecond : Agrees id peekSecond peekSecond := by
  intro s s' hs
  have hitems : s.items.map Item.unplaced = s'.items.map Item.unplaced := hs
  have hpeek := agrees_peek.discard s s' hs
  -- Unless a token is in view, what comes behind it is not looked at.
  cases h : s.items with
  | nil =>
    unfold peekSecond
    rw [bind_of_error (discard_of_error (peek_of_nil h))]
    exact .exhausted
  | cons item rest =>
    rw [h] at hitems
    obtain ⟨item', rest', h', hitem, hrest⟩ := List.map_eq_cons_iff.mp hitems.symm
    cases item with
    | error e =>
      cases item' with
      | ok t' => cases hitem
      | error e' =>
        unfold peekSecond
        rw [bind_of_error (discard_of_error (peek_of_error h)),
          bind_of_error (discard_of_error (peek_of_error h'))]
        exact .error (unplaced_lexical (Except.error.inj hitem.symm))
    | ok t =>
      cases item' with
      | error e' => cases hitem
      | ok t' =>
        rw [peekSecond_eq h, peekSecond_eq h']
        have hhead : rest.head?.map Item.unplaced = rest'.head?.map Item.unplaced := by
          rw [← List.head?_map, ← List.head?_map, hrest]
        have hview : Agrees id (ofItem rest.head? >>= fun t => Pure.pure t.kind)
            (ofItem rest'.head? >>= fun t => Pure.pure t.kind) :=
          Agrees.bind (fun _ _ => sameResult_ofItem hhead) fun _ _ ht =>
            .pure (congrArg Lexeme.kind ht)
        exact hview _ _ hs.lookedBehind

theorem agrees_accept (kind : Kind) :
    Agrees (Option.map Token.toLexeme) (accept kind) (accept kind) := by
  refine agrees_peekKind.bind fun k k' hk => ?_
  obtain rfl : k = k' := hk
  split
  · exact agrees_next.map fun _ _ ht => congrArg some ht
  · exact .pure rfl

theorem agrees_expect (kind : Kind) : Agrees Token.toLexeme (expect kind) (expect kind) := by
  refine agrees_peek.bind fun t t' ht => ?_
  have hkind : t.kind = t'.kind := congrArg Lexeme.kind ht
  rw [hkind]
  split
  · exact agrees_next
  · exact .throw (congrArg (SyntaxError.mismatch kind) (unplaced_token ht))

theorem agrees_unexpected (expected : String) :
    Agrees view (unexpected expected : Reading α) (unexpected expected) :=
  agrees_peek.bind fun _ _ ht =>
    .throw (congrArg (SyntaxError.unexpected expected) (unplaced_token ht))

end Reading

/-! ### The readers of the parser -/

namespace Parse

open Reading

variable {α β : Type} {view : α → β} {n m : Nat}

theorem agrees_ident : Agrees Ident.unplaced ident ident :=
  (agrees_expect .ident).bind fun _ _ ht =>
    .pure (congrArg (fun l : Lexeme => Ident.mk l.text .none) ht)

theorem agrees_separated {item item' : Reading α} (h : Agrees view item item') (hn : n ≤ m) :
    Agrees (List.map view) (separated item n) (separated item' m) := by
  have hfrom (done done' : List α) (hdone : done.map view = done'.map view) :
      Agrees (List.map view) (separatedFrom item n done) (separatedFrom item' m done') := by
    induction n generalizing m done done' with
    | zero => exact .exhausted
    | succ n ih =>
      obtain ⟨m, rfl⟩ : ∃ m', m = m' + 1 := ⟨m - 1, by omega⟩
      refine h.bind fun x x' hx => (agrees_accept _).bind fun comma comma' hcomma => ?_
      have hcons : (x :: done).map view = (x' :: done').map view := by
        rw [List.map_cons, List.map_cons, hx, hdone]
      cases comma with
      | some =>
        cases comma' with
        | some => exact ih (by omega) _ _ hcons
        | none => cases hcomma
      | none =>
        cases comma' with
        | some => cases hcomma
        | none =>
          refine .pure ?_
          rw [List.map_reverse, List.map_reverse, hcons]
  exact hfrom [] [] rfl

theorem agrees_many {begins : Kind → Bool} {item item' : Reading α} (h : Agrees view item item')
    (hn : n ≤ m) : Agrees (List.map view) (many begins item n) (many begins item' m) := by
  have hfrom (done done' : List α) (hdone : done.map view = done'.map view) :
      Agrees (List.map view) (whileFrom begins item n done) (whileFrom begins item' m done') := by
    induction n generalizing m done done' with
    | zero => exact .exhausted
    | succ n ih =>
      obtain ⟨m, rfl⟩ : ∃ m', m = m' + 1 := ⟨m - 1, by omega⟩
      refine agrees_peekKind.bind fun k k' hk => ?_
      obtain rfl : k = k' := hk
      split
      · refine h.bind fun x x' hx => ih (by omega) _ _ ?_
        rw [List.map_cons, List.map_cons, hx, hdone]
      · refine .pure ?_
        rw [List.map_reverse, List.map_reverse, hdone]
  exact hfrom [] [] rfl

theorem agrees_typeName : Agrees TypeName.unplaced typeName typeName := by
  refine agrees_peekKind.bind fun k k' hk => ?_
  obtain rfl : k = k' := hk
  split
  · exact agrees_next.discard.bind fun _ _ _ => .pure rfl
  · exact agrees_next.discard.bind fun _ _ _ => .pure rfl
  · exact agrees_next.discard.bind fun _ _ _ => .pure rfl
  · exact agrees_ident.bind fun _ _ hx => .pure (congrArg TypeName.named hx)
  · exact agrees_unexpected _

theorem agrees_returnType : Agrees ReturnType.unplaced returnType returnType := by
  refine (agrees_accept _).bind fun void void' hvoid => ?_
  cases void with
  | some =>
    cases void' with
    | some => exact .pure rfl
    | none => cases hvoid
  | none =>
    cases void' with
    | some => cases hvoid
    | none => exact agrees_typeName.bind fun _ _ htype => .pure (congrArg ReturnType.value htype)

theorem literalOf?_unplaced {t t' : Token} (h : t.toLexeme = t'.toLexeme) :
    (literalOf? t).map Literal.unplaced = (literalOf? t').map Literal.unplaced := by
  obtain ⟨⟨kind, text⟩, span⟩ := t
  obtain ⟨lexeme, span'⟩ := t'
  cases h
  unfold literalOf?
  dsimp only
  split <;> rfl

theorem agrees_literal : Agrees Literal.unplaced literal literal := by
  refine agrees_peek.bind fun t t' ht => ?_
  have hliteral := literalOf?_unplaced ht
  cases h : literalOf? t with
  | some value =>
    rw [h] at hliteral
    obtain ⟨value', h', hvalue⟩ := Option.map_eq_some_iff.mp hliteral.symm
    rw [h']
    exact agrees_next.discard.bind fun _ _ _ => .pure hvalue.symm
  | none =>
    rw [h] at hliteral
    rw [Option.map_eq_none_iff.mp hliteral.symm]
    exact agrees_unexpected _

/-! ### Expressions -/

theorem agrees_operandsFrom {term term' : Reading Term} (h : Agrees Term.unplaced term term')
    (hn : n ≤ m) {done done' : List Operand}
    (hdone : operandsUnplaced done = operandsUnplaced done') :
    Agrees operandsUnplaced (operandsFrom term n done) (operandsFrom term' m done') := by
  induction n generalizing m done done' with
  | zero => exact .exhausted
  | succ n ih =>
    obtain ⟨m, rfl⟩ : ∃ m', m = m' + 1 := ⟨m - 1, by omega⟩
    refine agrees_peekKind.bind fun k k' hk => ?_
    obtain rfl : k = k' := hk
    split
    · refine agrees_next.discard.bind fun _ _ _ => h.bind fun t t' ht => ih (by omega) ?_
      rw [operandsUnplaced, operandsUnplaced, ht, hdone]
    · refine .pure ?_
      rw [operandsUnplaced_eq_map, operandsUnplaced_eq_map] at hdone ⊢
      rw [List.map_reverse, List.map_reverse, hdone]

theorem agrees_exprOf {term term' : Reading Term} (h : Agrees Term.unplaced term term')
    (hn : n ≤ m) : Agrees Expr.unplaced (exprOf term n) (exprOf term' m) := by
  refine h.bind fun t t' ht => (agrees_operandsFrom h hn rfl).bind fun tail tail' htail => .pure ?_
  rw [Expr.unplaced, Expr.unplaced, ht, htail]

section
variable {expr expr' : Reading Expr}

theorem agrees_parenOf (h : Agrees Expr.unplaced expr expr') :
    Agrees Expr.unplaced (parenOf expr) (parenOf expr') :=
  (agrees_expect _).discard.bind fun _ _ _ => h.bind fun _ _ he =>
    (agrees_expect _).discard.bind fun _ _ _ => .pure he

theorem agrees_subscriptOf (h : Agrees Expr.unplaced expr expr') :
    Agrees Expr.unplaced (subscriptOf expr) (subscriptOf expr') :=
  (agrees_expect _).discard.bind fun _ _ _ => h.bind fun _ _ he =>
    (agrees_expect _).discard.bind fun _ _ _ => .pure he

theorem agrees_argsOf (h : Agrees Expr.unplaced expr expr') (hn : n ≤ m) :
    Agrees argsUnplaced (argsOf expr n) (argsOf expr' m) := by
  refine agrees_peekKind.bind fun k k' hk => ?_
  obtain rfl : k = k' := hk
  split
  · exact .pure rfl
  · refine (agrees_separated h hn).mono fun args args' hargs => ?_
    rw [argsUnplaced_eq_map, argsUnplaced_eq_map, hargs]

theorem agrees_callOf (h : Agrees Expr.unplaced expr expr') (hn : n ≤ m) :
    Agrees Call.unplaced (callOf expr n) (callOf expr' m) := by
  refine agrees_ident.bind fun first first' hfirst => (agrees_accept _).bind fun dot dot' hdot => ?_
  -- Behind a dot the first name is the receiver, and the name of the subroutine follows.
  have hrest (receiver receiver' : Option Ident) (name name' : Ident)
      (hreceiver : receiver.map Ident.unplaced = receiver'.map Ident.unplaced)
      (hname : name.unplaced = name'.unplaced) :
      Agrees Call.unplaced
        (do
          let paren ← expect (.symbol .leftParen)
          let args ← argsOf expr n
          discard <| expect (.symbol .rightParen)
          return Call.mk receiver name paren.span args)
        (do
          let paren ← expect (.symbol .leftParen)
          let args ← argsOf expr' m
          discard <| expect (.symbol .rightParen)
          return Call.mk receiver' name' paren.span args) := by
    refine (agrees_expect _).bind fun _ _ _ => (agrees_argsOf h hn).bind fun args args' hargs =>
      (agrees_expect _).discard.bind fun _ _ _ => .pure ?_
    rw [Call.unplaced, Call.unplaced, hreceiver, hname, hargs]
  cases dot with
  | some =>
    cases dot' with
    | some =>
      exact agrees_ident.bind fun name name' hname =>
        hrest _ _ name name' (congrArg some hfirst) hname
    | none => cases hdot
  | none =>
    cases dot' with
    | some => cases hdot
    | none => exact hrest none none first first' rfl hfirst

end

theorem agrees_termAt (hn : n ≤ m) : Agrees Term.unplaced (termAt n) (termAt m) := by
  induction n generalizing m with
  | zero => exact .exhausted
  | succ n ih =>
    obtain ⟨m, rfl⟩ : ∃ m', m = m' + 1 := ⟨m - 1, by omega⟩
    have hle : n ≤ m := by omega
    have hexpr : Agrees Expr.unplaced (exprOf (termAt n) n) (exprOf (termAt m) m) :=
      agrees_exprOf (ih hle) hle
    have hliteral : Agrees Term.unplaced (do return .literal (← literal))
        (do return .literal (← literal)) := by
      refine agrees_literal.bind fun value value' hvalue => .pure ?_
      rw [Term.unplaced, Term.unplaced, hvalue]
    have hunary (op : UnaryOp) : Agrees Term.unplaced
        (do
          discard next
          return .unary op (← termAt n))
        (do
          discard next
          return .unary op (← termAt m)) := by
      refine agrees_next.discard.bind fun _ _ _ => (ih hle).bind fun t t' ht => .pure ?_
      rw [Term.unplaced, Term.unplaced, ht]
    rw [termAt, termAt]
    refine agrees_peekKind.bind fun k k' hk => ?_
    obtain rfl : k = k' := hk
    split
    · exact hliteral
    · exact hliteral
    · exact hliteral
    · exact hliteral
    · exact hliteral
    · exact hliteral
    · refine agrees_peekSecond.bind fun second second' hsecond => ?_
      obtain rfl : second = second' := hsecond
      split
      · refine agrees_ident.bind fun x x' hx => (agrees_subscriptOf hexpr).bind fun e e' he =>
          .pure ?_
        rw [Term.unplaced, Term.unplaced, hx, he]
      · refine (agrees_callOf hexpr hle).bind fun call call' hcall => .pure ?_
        rw [Term.unplaced, Term.unplaced, hcall]
      · refine (agrees_callOf hexpr hle).bind fun call call' hcall => .pure ?_
        rw [Term.unplaced, Term.unplaced, hcall]
      · refine agrees_ident.bind fun x x' hx => .pure ?_
        rw [Term.unplaced, Term.unplaced, hx]
    · refine (agrees_parenOf hexpr).bind fun e e' he => .pure ?_
      rw [Term.unplaced, Term.unplaced, he]
    · exact hunary .neg
    · exact hunary .not
    · exact agrees_unexpected _

theorem agrees_exprAt (hn : n ≤ m) : Agrees Expr.unplaced (exprAt n) (exprAt m) :=
  agrees_exprOf (agrees_termAt hn) hn

/-! ### Statements -/

section
variable {expr expr' : Reading Expr} {block block' : Reading (List Statement)}

theorem agrees_blockOf {statement statement' : Reading Statement}
    (h : Agrees Statement.unplaced statement statement') (hn : n ≤ m) :
    Agrees statementsUnplaced (blockOf statement n) (blockOf statement' m) := by
  refine (agrees_expect _).discard.bind fun _ _ _ => (agrees_many h hn).bind fun body body' hbody =>
    (agrees_expect _).discard.bind fun _ _ _ => .pure ?_
  rw [statementsUnplaced_eq_map, statementsUnplaced_eq_map, hbody]

theorem agrees_letOf (h : Agrees Expr.unplaced expr expr') :
    Agrees Statement.unplaced (letOf expr) (letOf expr') := by
  refine (agrees_expect _).discard.bind fun _ _ _ => agrees_ident.bind fun x x' hx =>
    agrees_peekKind.bind fun k k' hk => ?_
  obtain rfl : k = k' := hk
  have hrest (make make' : Expr → Statement)
      (hmake : ∀ value value', value.unplaced = value'.unplaced →
      (make value).unplaced = (make' value').unplaced) : Agrees Statement.unplaced
        (do
          discard <| expect (.symbol .equals)
          let value ← expr
          discard <| expect (.symbol .semicolon)
          return make value)
        (do
          discard <| expect (.symbol .equals)
          let value ← expr'
          discard <| expect (.symbol .semicolon)
          return make' value) :=
    (agrees_expect _).discard.bind fun _ _ _ => h.bind fun value value' hvalue =>
      (agrees_expect _).discard.bind fun _ _ _ => .pure (hmake value value' hvalue)
  have hplain (value value' : Expr) (hvalue : value.unplaced = value'.unplaced) :
      (Statement.assign x value).unplaced = (Statement.assign x' value').unplaced := by
    rw [Statement.unplaced, Statement.unplaced, hx, hvalue]
  split
  · have hsome : Agrees (Option.map Expr.unplaced) (some <$> subscriptOf expr)
        (some <$> subscriptOf expr') :=
      (agrees_subscriptOf h).map fun _ _ he => congrArg some he
    refine hsome.bind fun subscript subscript' hsubscript => ?_
    cases subscript with
    | some subscript =>
      cases subscript' with
      | some subscript' =>
        refine hrest (.assignElement x subscript) (.assignElement x' subscript')
          fun value value' hvalue => ?_
        rw [Statement.unplaced, Statement.unplaced, hx, Option.some.inj hsubscript, hvalue]
      | none => cases hsubscript
    | none =>
      cases subscript' with
      | some => cases hsubscript
      | none => exact hrest (.assign x) (.assign x') hplain
  · exact hrest (.assign x) (.assign x') hplain

theorem agrees_ifOf (h : Agrees Expr.unplaced expr expr')
    (hblock : Agrees statementsUnplaced block block') :
    Agrees Statement.unplaced (ifOf expr block) (ifOf expr' block') := by
  refine (agrees_expect _).discard.bind fun _ _ _ =>
    (agrees_parenOf h).bind fun condition condition' hcondition =>
    hblock.bind fun body body' hbody =>
      (agrees_accept _).bind fun otherwise otherwise' hotherwise => ?_
  cases otherwise with
  | some =>
    cases otherwise' with
    | some =>
      refine hblock.bind fun alternative alternative' halternative => .pure ?_
      rw [Statement.unplaced, Statement.unplaced, hcondition, hbody, halternative]
    | none => cases hotherwise
  | none =>
    cases otherwise' with
    | some => cases hotherwise
    | none =>
      refine .pure ?_
      rw [Statement.unplaced, Statement.unplaced, hcondition, hbody]

theorem agrees_whileOf (h : Agrees Expr.unplaced expr expr')
    (hblock : Agrees statementsUnplaced block block') :
    Agrees Statement.unplaced (whileOf expr block) (whileOf expr' block') := by
  refine (agrees_expect _).discard.bind fun _ _ _ =>
    (agrees_parenOf h).bind fun condition condition' hcondition =>
    hblock.bind fun body body' hbody => .pure ?_
  rw [Statement.unplaced, Statement.unplaced, hcondition, hbody]

theorem agrees_doOf {call call' : Reading Call} (h : Agrees Call.unplaced call call') :
    Agrees Statement.unplaced (doOf call) (doOf call') := by
  refine (agrees_expect _).discard.bind fun _ _ _ => h.bind fun call call' hcall =>
    (agrees_expect _).discard.bind fun _ _ _ => .pure ?_
  rw [Statement.unplaced, Statement.unplaced, hcall]

theorem agrees_returnOf (h : Agrees Expr.unplaced expr expr') :
    Agrees Statement.unplaced (returnOf expr) (returnOf expr') := by
  refine (agrees_expect _).discard.bind fun _ _ _ => agrees_peekKind.bind fun k k' hk => ?_
  obtain rfl : k = k' := hk
  have hrest (value value' : Option Expr)
      (hvalue : value.map Expr.unplaced = value'.map Expr.unplaced) : Agrees Statement.unplaced
        (do
          discard <| expect (.symbol .semicolon)
          return .return value)
        (do
          discard <| expect (.symbol .semicolon)
          return .return value') := by
    refine (agrees_expect _).discard.bind fun _ _ _ => .pure ?_
    rw [Statement.unplaced, Statement.unplaced, hvalue]
  split
  · exact hrest none none rfl
  · have hsome : Agrees (Option.map Expr.unplaced) (some <$> expr) (some <$> expr') :=
      h.map fun _ _ he => congrArg some he
    exact hsome.bind hrest

end

theorem agrees_statementAt (hn : n ≤ m) :
    Agrees Statement.unplaced (statementAt n) (statementAt m) := by
  induction n generalizing m with
  | zero => exact .exhausted
  | succ n ih =>
    obtain ⟨m, rfl⟩ : ∃ m', m = m' + 1 := ⟨m - 1, by omega⟩
    have hle : n ≤ m := by omega
    have hexpr := agrees_exprAt hle
    have hblock := agrees_blockOf (ih hle) hle
    rw [statementAt, statementAt]
    refine agrees_peekKind.bind fun k k' hk => ?_
    obtain rfl : k = k' := hk
    split
    · exact agrees_letOf hexpr
    · exact agrees_ifOf hexpr hblock
    · exact agrees_whileOf hexpr hblock
    · exact agrees_doOf (agrees_callOf hexpr hle)
    · exact agrees_returnOf hexpr
    · exact agrees_unexpected _

theorem agrees_statementsAt (hn : n ≤ m) :
    Agrees statementsUnplaced (statementsAt n) (statementsAt m) := by
  refine (agrees_many (agrees_statementAt hn) hn).mono fun body body' hbody => ?_
  rw [statementsUnplaced_eq_map, statementsUnplaced_eq_map, hbody]

/-! ### Declarations -/

theorem agrees_parameter : Agrees Parameter.unplaced parameter parameter := by
  refine agrees_typeName.bind fun type type' htype => agrees_ident.bind fun x x' hx => .pure ?_
  rw [Parameter.unplaced, Parameter.unplaced, htype, hx]

theorem agrees_parametersAt (hn : n ≤ m) :
    Agrees (List.map Parameter.unplaced) (parametersAt n) (parametersAt m) := by
  refine agrees_peekKind.bind fun k k' hk => ?_
  obtain rfl : k = k' := hk
  split
  · exact .pure rfl
  · exact agrees_separated agrees_parameter hn

theorem agrees_varDecAt (hn : n ≤ m) : Agrees VarDec.unplaced (varDecAt n) (varDecAt m) := by
  refine (agrees_expect _).discard.bind fun _ _ _ => agrees_typeName.bind fun type type' htype =>
    (agrees_separated agrees_ident hn).bind fun names names' hnames =>
    (agrees_expect _).discard.bind fun _ _ _ => .pure ?_
  rw [VarDec.unplaced, VarDec.unplaced, htype, hnames]

theorem agrees_bodyAt (hn : n ≤ m) :
    Agrees (Prod.map (List.map VarDec.unplaced) statementsUnplaced) (bodyAt n) (bodyAt m) :=
  (agrees_expect _).discard.bind fun _ _ _ =>
    (agrees_many (agrees_varDecAt hn) hn).bind fun _ _ hlocals =>
    (agrees_statementsAt hn).bind fun _ _ hbody => (agrees_expect _).discard.bind fun _ _ _ =>
    .pure (Prod.ext hlocals hbody)

theorem agrees_subroutineAt (hn : n ≤ m) :
    Agrees Subroutine.unplaced (subroutineAt n) (subroutineAt m) := by
  refine agrees_peekKind.bind fun k k' hk => ?_
  obtain rfl : k = k' := hk
  split
  · exact agrees_unexpected _
  · refine agrees_next.discard.bind fun _ _ _ =>
      agrees_returnType.bind fun returns returns' hreturns =>
      agrees_ident.bind fun name name' hname => (agrees_expect _).discard.bind fun _ _ _ =>
      (agrees_parametersAt hn).bind fun parameters parameters' hparameters =>
      (agrees_expect _).discard.bind fun _ _ _ => (agrees_bodyAt hn).bind fun body body' hbody =>
        .pure ?_
    obtain ⟨hlocals, hstatements⟩ := Prod.ext_iff.mp hbody
    replace hlocals : body.1.map VarDec.unplaced = body'.1.map VarDec.unplaced := hlocals
    replace hstatements : statementsUnplaced body.2 = statementsUnplaced body'.2 := hstatements
    unfold Subroutine.unplaced
    rw [hreturns, hname, hparameters, hlocals, hstatements]

theorem agrees_classVarDecAt (hn : n ≤ m) :
    Agrees ClassVarDec.unplaced (classVarDecAt n) (classVarDecAt m) := by
  refine agrees_peekKind.bind fun k k' hk => ?_
  obtain rfl : k = k' := hk
  split
  · exact agrees_unexpected _
  · refine agrees_next.discard.bind fun _ _ _ => agrees_typeName.bind fun type type' htype =>
      (agrees_separated agrees_ident hn).bind fun names names' hnames =>
      (agrees_expect _).discard.bind fun _ _ _ => .pure ?_
    unfold ClassVarDec.unplaced
    rw [htype, hnames]

theorem agrees_classAt (hn : n ≤ m) : Agrees Class.unplaced (classAt n) (classAt m) := by
  refine (agrees_expect _).discard.bind fun _ _ _ => agrees_ident.bind fun name name' hname =>
    (agrees_expect _).discard.bind fun _ _ _ =>
      (agrees_many (agrees_classVarDecAt hn) hn).bind fun vars vars' hvars =>
    (agrees_many (agrees_subroutineAt hn) hn).bind fun subroutines subroutines' hsubroutines =>
    (agrees_expect _).discard.bind fun _ _ _ => .pure ?_
  unfold Class.unplaced
  rw [hname, hvars, hsubroutines]

theorem agrees_unitAt (hn : n ≤ m) : Agrees Class.unplaced (unitAt n) (unitAt m) := by
  refine (agrees_classAt hn).bind fun c c' hc => agrees_peekKind.bind fun k k' hk => ?_
  obtain rfl : k = k' := hk
  split
  · exact agrees_next.discard.bind fun _ _ _ => .pure hc
  · exact agrees_unexpected _

end Parse

end JackToolchain.Jack
