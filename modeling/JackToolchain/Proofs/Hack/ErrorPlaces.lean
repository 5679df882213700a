import Mathlib.Data.List.Chain
import JackToolchain.Proofs.Hack.CitedLines
import JackToolchain.Proofs.Hack.LineReading

/-!
# Errors point at tokens

The assembler reports the token that keeps it from reading a line (`TokenLine.Blames`), and of an
instruction that it cannot encode the first token.  Such a token ends its line only if there is
another token in front of it, and a token that ends no line does not begin with a carriage return.
So nothing is ever reported between a line feed and the carriage return behind it, and a reported
token has a line around it (`exists_blamed`).
-/

namespace JackToolchain.Hack

variable {text front rest cs : List Char} {offset size : Nat} {source : String} {t u : Token}
  {ts : List Token} {l : TokenLine} {ls : List TokenLine} {e : Located} {p : Program}

/-! ### Tokens in their source -/

/-- A token stands between two parts of a text: its stretch covers its own text, and it is spelled
by it, unless it is the end of the text. -/
structure Token.StandsIn (text front rest : List Char) (t : Token) : Prop where
  text_eq : text = front ++ (t.text.toList ++ rest)
  index_eq : t.span.index = byteLength front
  size_eq : t.span.size = byteLength t.text.toList
  spelled : Spells rest t.text.toList t.kind ∨ t.kind = .endOfFile ∧ t.text.toList = [] ∧ rest = []

/-- A token at an offset whose line can be cited. -/
def Token.Citable (text : List Char) (t : Token) : Prop :=
  ∃ front rest, text = front ++ rest ∧ t.span.index = byteLength front ∧ Hack.Citable front rest

namespace Token.StandsIn

theorem isSlice (h : t.StandsIn text front rest) :
    IsSlice text t.span.index t.span.stop t.text.toList :=
  ⟨front, rest, h.text_eq, h.index_eq, congrArg (t.span.index + ·) h.size_eq⟩

/-- A token that ends no line does not begin with a carriage return. -/
theorem citable (h : t.StandsIn text front rest) (hkind : t.kind.endsLine = false) :
    t.Citable text := by
  refine ⟨front, t.text.toList ++ rest, h.text_eq, h.index_eq, .inl ?_⟩
  rcases h.spelled with hspells | ⟨heof, -, -⟩
  · have hnewline : t.kind ≠ .newline := by
      intro hline
      rw [hline] at hkind
      cases hkind
    obtain ⟨c, cs, hlist⟩ := List.exists_cons_of_ne_nil hspells.ne_nil
    have hc := hspells.not_newline hnewline c (hlist ▸ List.mem_cons_self)
    refine ⟨c, by rw [hlist]; rfl, ?_⟩
    rintro rfl
    cases hc
  · rw [heof] at hkind
    cases hkind

/-- An end of file that is not at the end of the text is a NUL character. -/
theorem citable_of_nul (h : t.StandsIn text front rest) (hkind : t.kind = .endOfFile)
    (hstop : t.span.stop ≠ byteLength text) : t.Citable text := by
  refine ⟨front, t.text.toList ++ rest, h.text_eq, h.index_eq, .inl ?_⟩
  rcases h.spelled with hspells | ⟨-, hempty, rfl⟩
  · rw [hkind] at hspells
    rw [hspells.eq_nul]
    exact ⟨'\x00', rfl, by decide⟩
  · refine absurd ?_ hstop
    rw [h.text_eq, Span.stop, h.index_eq, h.size_eq, hempty, byteLength_append]
    rfl

end Token.StandsIn

/-! ### Tokens of a tiling -/

theorem toList_text_tokenAt (offset : Nat) (kind : TokenKind) (text : List Char) :
    (tokenAt offset kind text).text.toList = text := String.toList_ofList

/-- A token, or the end of a text, stands behind a gap. -/
theorem standsIn_tokenAt (gap : List Char) {kind : TokenKind} (hoffset : offset = byteLength front)
    (h : Spells rest text kind ∨ kind = .endOfFile ∧ text = [] ∧ rest = []) :
    (tokenAt (offset + byteLength gap) kind text).StandsIn (front ++ (gap ++ (text ++ rest)))
      (front ++ gap) rest := by
  have htext := toList_text_tokenAt (offset + byteLength gap) kind text
  refine ⟨?_, ?_, ?_, ?_⟩
  · rw [htext, List.append_assoc]
  · rw [hoffset, byteLength_append]
    rfl
  · rw [htext]
    rfl
  · rw [htext]
    exact h

/-- The first token stands behind a gap. -/
theorem Tiling.standsIn_head (h : Tiling offset cs (t :: ts))
    (hoffset : offset = byteLength front) :
    ∃ gap rest, (∀ c ∈ gap, isNewline c = false) ∧
      t.StandsIn (front ++ cs) (front ++ gap) rest := by
  cases h with
  | stop hgap =>
    have hstands := standsIn_tokenAt cs hoffset (.inr ⟨rfl, rfl, rfl⟩)
    rw [List.append_nil, List.append_nil] at hstands
    exact ⟨cs, [], hgap.not_newline, hstands⟩
  | @last _ gap text hgap hspells =>
    have hstands := standsIn_tokenAt gap hoffset (.inl hspells)
    rw [List.append_nil] at hstands
    exact ⟨gap, [], hgap.not_newline, hstands⟩
  | @token _ gap text rest kind _ hgap hspells _ _ =>
    exact ⟨gap, rest, hgap.not_newline, standsIn_tokenAt gap hoffset (.inl hspells)⟩

/-- What has been read behind a token. -/
theorem read_on (hoffset : offset = byteLength front) (gap text rest : List Char) :
    offset + byteLength gap + byteLength text = byteLength (front ++ (gap ++ text)) ∧
      front ++ (gap ++ (text ++ rest)) = (front ++ (gap ++ text)) ++ rest := by
  constructor
  · rw [hoffset, byteLength_append, byteLength_append, Nat.add_assoc]
  · simp only [List.append_assoc]

/-- Every token stands somewhere in the text. -/
theorem Tiling.standsIn (h : Tiling offset cs ts) (hoffset : offset = byteLength front) :
    ∀ t ∈ ts, ∃ before rest, t.StandsIn (front ++ cs) before rest := by
  induction h generalizing front with
  | stop hgap =>
    obtain ⟨gap, rest, -, hstands⟩ := Tiling.standsIn_head (.stop hgap) hoffset
    exact List.forall_mem_singleton.mpr ⟨_, rest, hstands⟩
  | last hgap hspells =>
    obtain ⟨gap, rest, -, hstands⟩ := Tiling.standsIn_head (.last hgap hspells) hoffset
    exact List.forall_mem_singleton.mpr ⟨_, rest, hstands⟩
  | @token offset gap text rest kind ts hgap hspells hmore htail ih =>
    obtain ⟨_, _, -, hstands⟩ := Tiling.standsIn_head (.token hgap hspells hmore htail) hoffset
    obtain ⟨hoffset', htext⟩ := read_on hoffset gap text rest
    refine List.forall_mem_cons.mpr ⟨⟨_, _, hstands⟩, ?_⟩
    rw [htext]
    exact ih hoffset'

/-- A token follows another one: it does not begin in front of it, and in the same line it can be
cited. -/
def Token.Follows (text : List Char) (u t : Token) : Prop :=
  u.span.index ≤ t.span.index ∧ (u.kind.endsLine = false → t.Citable text)

/-- **Each token follows the one in front of it.**  Between two tokens of a line there is only a
gap. -/
theorem Tiling.follows (h : Tiling offset cs ts) (hoffset : offset = byteLength front) :
    ts.IsChain (Token.Follows (front ++ cs)) := by
  induction h generalizing front with
  | stop hgap => exact .singleton _
  | last hgap hspells => exact .singleton _
  | @token offset gap text rest kind ts hgap hspells hmore htail ih =>
    obtain ⟨hoffset', htext⟩ := read_on hoffset gap text rest
    rw [htext]
    refine (ih hoffset').cons fun t ht => ?_
    obtain ⟨ts, rfl⟩ := List.head?_eq_some_iff.mp ht
    obtain ⟨gap', rest', hgap', hstands⟩ := htail.standsIn_head hoffset'
    constructor
    · rw [hstands.index_eq, byteLength_append, ← hoffset']
      show offset + byteLength gap ≤ _
      omega
    · intro hkind
      have hnewline : kind ≠ .newline := by
        rintro rfl
        cases hkind
      have hother : ∀ c ∈ text ++ gap', isNewline c = false :=
        List.forall_mem_append.mpr ⟨hspells.not_newline hnewline, hgap'⟩
      have hne : text ++ gap' ≠ [] := List.append_ne_nil_of_left_ne_nil hspells.ne_nil gap'
      refine ⟨_, _, hstands.text_eq, hstands.index_eq, .inr ⟨(text ++ gap').getLast hne, ?_, ?_⟩⟩
      · have hsplit : front ++ (gap ++ text) ++ gap' = (front ++ gap) ++ (text ++ gap') := by
          simp only [List.append_assoc]
        rw [hsplit]
        exact List.mem_getLast?_append_of_mem_getLast? (List.getLast_mem_getLast? hne)
      · exact hother _ (List.getLast_mem hne)

/-! ### Lines of tokens -/

/-- The lines of tokens have the tokens in order. -/
theorem flatMap_tokens_tokenLines (ts : List Token) :
    (tokenLines ts).flatMap TokenLine.tokens <+: ts := by
  induction ts with
  | nil => exact List.prefix_refl []
  | cons t ts ih =>
    by_cases hends : t.kind.endsLine = true
    · rw [tokenLines_ending hends]
      exact List.cons_prefix_cons.mpr ⟨rfl, ih⟩
    · rw [tokenLines_cons (Bool.eq_false_iff.mpr hends)]
      cases hlines : tokenLines ts with
      | nil => exact List.nil_prefix
      | cons l ls =>
        rw [hlines] at ih
        exact List.cons_prefix_cons.mpr ⟨rfl, ih⟩

theorem infix_of_mem_tokenLines (h : l ∈ tokenLines ts) : l.tokens <:+: ts := by
  have hflat : l.tokens <:+: ((tokenLines ts).map TokenLine.tokens).flatten :=
    List.infix_of_mem_flatten (List.mem_map_of_mem h)
  exact hflat.trans (flatMap_tokens_tokenLines ts).isInfix

/-- Only the last token of a line ends it. -/
theorem ends_of_mem_tokenLines (h : l ∈ tokenLines ts) :
    (∀ t ∈ l.body, t.kind.endsLine = false) ∧ l.stop.kind.endsLine = true := by
  induction ts generalizing l with
  | nil => cases h
  | cons t ts ih =>
    by_cases hends : t.kind.endsLine = true
    · rw [tokenLines_ending hends] at h
      rcases List.mem_cons.mp h with rfl | h
      · exact ⟨List.forall_mem_nil _, hends⟩
      · exact ih h
    · rw [tokenLines_cons (Bool.eq_false_iff.mpr hends)] at h
      cases hlines : tokenLines ts with
      | nil =>
        rw [hlines] at h
        cases h
      | cons first ls =>
        rw [hlines] at h ih
        rcases List.mem_cons.mp h with rfl | h
        · obtain ⟨hbody, hstop⟩ := ih List.mem_cons_self
          exact ⟨List.forall_mem_cons.mpr ⟨Bool.eq_false_iff.mpr hends, hbody⟩, hstop⟩
        · exact ih (List.mem_cons_of_mem _ h)

/-! ### Reported tokens -/

namespace TokenLine

/-- Which token of a line a fault is about, in a source of `size` bytes. -/
inductive Blames (size : Nat) (l : TokenLine) : AsmFault → Token → Prop where
  | nullCharacter : l.body = [] → l.stop.kind = .endOfFile → l.stop.span.stop ≠ size →
      Blames size l .nullCharacter l.stop
  | unknownToken {t : Token} : t ∈ l.body.head? → t.kind = .unknown →
    Blames size l (.unknownToken t.text) t
  | operandExpected {sign t : Token} : [sign, t] <+: l.tokens → sign.kind = .at → t.kind ≠ .symbol →
      t.kind ≠ .number → Blames size l .operandExpected t
  | constantOutOfRange {sign t : Token} : [sign, t] <+: l.tokens → sign.kind = .at →
      t.kind = .number → maxConstant < Text.decimalValue t.text.toList →
      Blames size l (.constantOutOfRange t.text) t
  | labelExpected {paren t : Token} : [paren, t] <+: l.tokens → paren.kind = .leftParen →
      t.kind ≠ .symbol → Blames size l .labelExpected t
  | rightParenExpected {paren name t : Token} : [paren, name, t] <+: l.tokens →
      paren.kind = .leftParen → name.kind = .symbol → t.kind ≠ .rightParen →
      Blames size l .rightParenExpected t
  /-- The line is as it should be, so the name of its label is to blame. -/
  | duplicateSymbol {paren t close : Token} : l.body = [paren, t, close] → paren.kind = .leftParen →
      t.kind = .symbol → Blames size l (.duplicateSymbol t.text) t
  | endExpectedBehindLoad {sign operand t : Token} : [sign, operand, t] <+: l.body →
      sign.kind = .at → operand.kind = .symbol ∨ operand.kind = .number →
      Blames size l .endOfLineExpected t
  | endExpectedBehindLabel {paren name close t : Token} : [paren, name, close, t] <+: l.body →
      paren.kind = .leftParen → name.kind = .symbol → close.kind = .rightParen →
      Blames size l .endOfLineExpected t
  | unexpectedToken {instruction behind : List Token} {t : Token} :
      l.body = instruction ++ t :: behind →
      (∀ x ∈ instruction, x.kind.isInstructionPart = true) → t.kind.isInstructionPart = false →
      Blames size l (.unexpectedToken t.kind) t
  /-- The first token stands for the whole instruction. -/
  | instruction {t : Token} {fault : AsmFault} : t ∈ l.body.head? →
      Instruction.ofText (l.body.flatMap fun x => x.text.toList) = .error fault →
      Blames size l fault t

/-- **A reported token can be cited.**  It ends no line, or is a NUL character, or stands in a line
behind another token. -/
theorem Blames.citable {fault : AsmFault} (h : l.Blames (byteLength text) fault t)
    (hstands : ∀ x ∈ l.tokens, ∃ before rest, x.StandsIn text before rest)
    (hbody : ∀ x ∈ l.body, x.kind.endsLine = false)
    (hfollows : l.tokens.IsChain (Token.Follows text)) : t.Citable text := by
  have hinBody {x : Token} (hx : x ∈ l.body) : x.Citable text := by
    obtain ⟨before, rest, hx'⟩ := hstands x (List.mem_append_left _ hx)
    exact hx'.citable (hbody x hx)
  have hchain {xs : List Token} (hxs : xs <+: l.tokens) : xs.IsChain (Token.Follows text) :=
    hfollows.prefix hxs
  have hbehind {x y : Token} {kind : TokenKind} (hchain : [x, y].IsChain (Token.Follows text))
      (hx : x.kind = kind) (hkind : kind.endsLine = false) : y.Citable text :=
    (List.isChain_cons_cons.mp hchain).1.2 (hx ▸ hkind)
  cases h with
  | nullCharacter _ hkind hstop =>
    obtain ⟨before, rest, hstop'⟩ := hstands l.stop List.mem_concat_self
    exact hstop'.citable_of_nul hkind hstop
  | unknownToken hmem _ => exact hinBody (List.mem_of_mem_head? hmem)
  | operandExpected hfront hsign _ _ => exact hbehind (hchain hfront) hsign rfl
  | constantOutOfRange hfront hsign _ _ => exact hbehind (hchain hfront) hsign rfl
  | labelExpected hfront hparen _ => exact hbehind (hchain hfront) hparen rfl
  | rightParenExpected hfront _ hname _ =>
    exact hbehind (List.isChain_cons_cons.mp (hchain hfront)).2 hname rfl
  | duplicateSymbol hlist _ _ => exact hinBody (by simp [hlist])
  | endExpectedBehindLoad hfront _ _ => exact hinBody (hfront.subset (by simp))
  | endExpectedBehindLabel hfront _ _ _ => exact hinBody (hfront.subset (by simp))
  | unexpectedToken hlist _ _ => exact hinBody (by simp [hlist])
  | instruction hmem _ => exact hinBody (List.mem_of_mem_head? hmem)

/-! ### Reading lines -/

variable {stop : Token}

theorem firstOf_leads (stop : Token) (ts : List Token) : [firstOf stop ts] <+: ts ++ [stop] := by
  cases ts with
  | nil => exact List.prefix_refl _
  | cons t ts => exact ⟨ts ++ [stop], rfl⟩

theorem expectEnd_eq_error (h : expectEnd ts = .error e) :
    ∃ t rest, ts = t :: rest ∧ e = ⟨.endOfLineExpected, t.span⟩ := by
  cases ts with
  | nil => cases h
  | cons t ts => exact ⟨t, ts, rfl, (Except.error.inj h).symm⟩

theorem readOperand_eq_error (h : readOperand t = .error e) : e.span = t.span ∧
    ((t.kind = .number ∧ maxConstant < Text.decimalValue t.text.toList ∧
      e.fault = .constantOutOfRange t.text) ∨
      (t.kind ≠ .symbol ∧ t.kind ≠ .number ∧ e.fault = .operandExpected)) := by
  unfold readOperand at h
  split at h
  · cases h
  · next hkind =>
    dsimp only at h
    split at h
    · cases h
    · next hvalue =>
      cases h
      exact ⟨rfl, .inl ⟨hkind, Nat.lt_of_not_le hvalue, rfl⟩⟩
  · next hsymbol hnumber =>
    cases h
    exact ⟨rfl, .inr ⟨hsymbol, hnumber, rfl⟩⟩

theorem blames_of_readLoad (ht : t.kind = .at) (h : readLoad stop ts = .error e) :
    ∃ x, Blames size ⟨t :: ts, stop⟩ e.fault x ∧ e.span = x.span := by
  have hfirst : [t, firstOf stop ts] <+: (⟨t :: ts, stop⟩ : TokenLine).tokens :=
    List.cons_prefix_cons.mpr ⟨rfl, firstOf_leads stop ts⟩
  unfold readLoad at h
  cases hoperand : readOperand (firstOf stop ts) with
  | error e' =>
    rw [hoperand] at h
    cases h
    obtain ⟨hspan, ⟨hkind, hvalue, hfault⟩ | ⟨hsymbol, hnumber, hfault⟩⟩ :=
      readOperand_eq_error hoperand
    · rw [hfault]
      exact ⟨_, .constantOutOfRange hfirst ht hkind hvalue, hspan⟩
    · rw [hfault]
      exact ⟨_, .operandExpected hfirst ht hsymbol hnumber, hspan⟩
  | ok operand =>
    rw [hoperand] at h
    cases hend : expectEnd (ts.drop 1) with
    | ok =>
      rw [hend] at h
      cases h
    | error e' =>
      rw [hend] at h
      cases h
      obtain ⟨x, rest, hdrop, rfl⟩ := expectEnd_eq_error hend
      match ts with
      | n :: _ =>
        cases hdrop
        have hkind : n.kind = .symbol ∨ n.kind = .number :=
          (readOperand_eq_ok hoperand).imp (fun h => h.1) fun h => h.1
        exact ⟨x, .endExpectedBehindLoad ⟨rest, rfl⟩ ht hkind, rfl⟩

theorem blames_of_readLabel (ht : t.kind = .leftParen) (h : readLabel stop ts = .error e)
    (hstop : stop.kind.endsLine = true) :
    ∃ x, Blames size ⟨t :: ts, stop⟩ e.fault x ∧ e.span = x.span := by
  unfold readLabel at h
  dsimp only at h
  by_cases hname : (firstOf stop ts).kind = .symbol
  · rw [if_neg (not_not_intro hname)] at h
    match ts with
    | [] =>
      -- The end of the line is no name.
      have hends : stop.kind = .symbol := hname
      rw [hends] at hstop
      cases hstop
    | name :: ts =>
      by_cases hclose : (firstOf stop ts).kind = .rightParen
      · replace h : (do expectEnd (ts.drop 1); return ⟨.label name.text, name.span⟩ :
            Except Located LocatedStatement) = .error e := by
          rwa [List.drop_one, List.tail_cons, if_neg (not_not_intro hclose)] at h
        cases hend : expectEnd (ts.drop 1) with
        | ok =>
          rw [hend] at h
          cases h
        | error e' =>
          rw [hend] at h
          cases h
          obtain ⟨x, rest, hdrop, rfl⟩ := expectEnd_eq_error hend
          match ts with
          | close :: _ =>
            cases hdrop
            exact ⟨x, .endExpectedBehindLabel ⟨rest, rfl⟩ ht hname hclose, rfl⟩
      · rw [List.drop_one, List.tail_cons, if_pos hclose] at h
        cases h
        refine ⟨_, .rightParenExpected ?_ ht hname hclose, rfl⟩
        exact List.cons_prefix_cons.mpr ⟨rfl,
          List.cons_prefix_cons.mpr ⟨rfl, firstOf_leads stop ts⟩⟩
  · rw [if_pos hname] at h
    cases h
    exact ⟨_, .labelExpected (List.cons_prefix_cons.mpr ⟨rfl, firstOf_leads stop ts⟩) ht hname, rfl⟩

/-- An instruction covers all of its tokens, so it begins where the first of them does. -/
theorem blames_of_readCompute (h : readCompute t ts = .error e)
    (hsorted : ∀ x ∈ ts, t.span.index ≤ x.span.index) :
    ∃ x, Blames size ⟨t :: ts, stop⟩ e.fault x ∧ e.span.index = x.span.index := by
  unfold readCompute at h
  split at h
  · next x hfind =>
    cases h
    obtain ⟨hx, front, behind, hlist, hparts⟩ := List.find?_eq_some_iff_append.mp hfind
    refine ⟨x, .unexpectedToken hlist (fun y hy => ?_) ?_, rfl⟩
    · simpa using hparts y hy
    · simpa using hx
  · dsimp only at h
    split at h
    · cases h
    · next fault hfault =>
      cases h
      refine ⟨t, .instruction rfl hfault, ?_⟩
      have hlast : (t :: ts).getLastD t = t ∨ (t :: ts).getLastD t ∈ ts := by
        rw [List.getLastD_cons]
        cases ts with
        | nil => exact .inl rfl
        | cons x ts =>
          rw [List.getLastD_cons]
          exact .inr List.getLastD_mem_cons
      refine Nat.min_eq_left ?_
      rcases hlast with hlast | hlast
      · rw [hlast]
      · exact hsorted _ hlast

/-- **What a line is refused for, and which token is reported.** -/
theorem blames_of_read (h : l.read size = .error e) (hstop : l.stop.kind.endsLine = true)
    (hsorted : l.body.Pairwise fun u t => u.span.index ≤ t.span.index) :
    ∃ t, l.Blames size e.fault t ∧ e.span.index = t.span.index := by
  obtain ⟨body, stop⟩ := l
  cases body with
  | nil =>
    unfold read at h
    dsimp only at h
    split at h
    · next hnul =>
      cases h
      exact ⟨stop, .nullCharacter rfl hnul.1 hnul.2, rfl⟩
    · cases h
  | cons t ts =>
    rw [read_cons] at h
    have hmap {x : Except Located LocatedStatement} (hx : some <$> x = .error e) : x =
        .error e := by
      cases x with
      | error e' =>
        cases hx
        rfl
      | ok s => cases hx
    replace h := hmap h
    split at h
    · next hkind =>
      obtain ⟨x, hx, hspan⟩ := blames_of_readLoad hkind h
      exact ⟨x, hx, by rw [hspan]⟩
    · next hkind =>
      obtain ⟨x, hx, hspan⟩ := blames_of_readLabel hkind h hstop
      exact ⟨x, hx, by rw [hspan]⟩
    · next hkind =>
      cases h
      exact ⟨t, .unknownToken rfl hkind, rfl⟩
    · exact blames_of_readCompute h (List.pairwise_cons.mp hsorted).1

/-- A line that declares a label consists of its name in parentheses. -/
theorem label_of_read {s : LocatedStatement} {name : String} (h : l.read size = .ok (some s))
    (hstop : l.stop.kind.endsLine = true) (hs : s.statement = .label name) :
    ∃ paren t close, l.body = [paren, t, close] ∧ paren.kind = .leftParen ∧ t.kind = .symbol ∧
      name = t.text ∧ s.span = t.span := by
  obtain ⟨body, stop⟩ := l
  cases body with
  | nil =>
    unfold read at h
    dsimp only at h
    split at h <;> cases h
  | cons t ts =>
    rw [read_cons] at h
    obtain ⟨s', hs', heq⟩ := of_map_eq_ok h
    cases heq
    split at hs'
    · obtain ⟨-, o, -, -, hload⟩ := readLoad_eq_ok hstop hs'
      rw [hs] at hload
      cases hload
    · next hkind =>
      obtain ⟨x, close, rfl, hx, hclose, hlabel⟩ := readLabel_eq_ok hstop hs'
      rw [readLabel_pair hx hclose] at hs'
      cases hs'
      cases hs
      exact ⟨t, x, close, rfl, hkind, hx, rfl, rfl⟩
    · cases hs'
    · obtain ⟨i, -, hcompute⟩ := readCompute_eq_ok hs'
      rw [hs] at hcompute
      cases hcompute

end TokenLine

/-! ### The first pass -/

theorem Program.add_eq_error {s : LocatedStatement} (h : p.add s = .error e) :
    ∃ name, s.statement = .label name ∧ e = ⟨.duplicateSymbol name, s.span⟩ := by
  obtain ⟨statement, span⟩ := s
  cases statement with
  | label name =>
    unfold Program.add at h
    dsimp only at h
    split at h
    · exact ⟨name, rfl, (Except.error.inj h).symm⟩
    · cases h
  | load o => cases h
  | compute i => cases h

/-- The first pass stops at a line that cannot be read, or whose statement cannot be added. -/
theorem Program.addLines_eq_error (h : p.addLines size ls = .error e) :
    ∃ l ∈ ls, l.read size = .error e ∨
    ∃ (p : Program) (s : LocatedStatement), l.read size = .ok (some s) ∧ p.add s = .error e := by
  induction ls generalizing p with
  | nil => cases h
  | cons l ls ih =>
    rw [Program.addLines] at h
    split at h
    · next hread =>
      cases h
      exact ⟨l, List.mem_cons_self, .inl hread⟩
    · obtain ⟨l', hl', hfails⟩ := ih h
      exact ⟨l', List.mem_cons_of_mem _ hl', hfails⟩
    · next s hread =>
      split at h
      · next hadd =>
        cases h
        exact ⟨l, List.mem_cons_self, .inr ⟨p, s, hread, hadd⟩⟩
      · obtain ⟨l', hl', hfails⟩ := ih h
        exact ⟨l', List.mem_cons_of_mem _ hl', hfails⟩

/-- What the first pass reports is a token of a line. -/
theorem Program.blames_of_addLines (h : p.addLines size ls = .error e)
    (hstop : ∀ l ∈ ls, l.stop.kind.endsLine = true)
    (hsorted : ∀ l ∈ ls, l.body.Pairwise fun u t => u.span.index ≤ t.span.index) :
    ∃ l ∈ ls, ∃ t, l.Blames size e.fault t ∧ e.span.index = t.span.index := by
  obtain ⟨l, hl, hread | ⟨p', s, hread, hadd⟩⟩ := Program.addLines_eq_error h
  · exact ⟨l, hl, TokenLine.blames_of_read hread (hstop l hl) (hsorted l hl)⟩
  · obtain ⟨name, hs, rfl⟩ := Program.add_eq_error hadd
    obtain ⟨paren, t, close, hbody, hparen, ht, rfl, hspan⟩ :=
      TokenLine.label_of_read hread (hstop l hl) hs
    exact ⟨l, hl, t, .duplicateSymbol hbody hparen ht, congrArg Span.index hspan⟩

/-! ### Sources -/

theorem exists_standsIn (source : String) :
    ∀ t ∈ tokens source, ∃ before rest, t.StandsIn source.toList before rest := by
  have hbegin : 0 = byteLength [] := rfl
  exact (tiling_tokens source).standsIn hbegin

theorem follows_of_mem_tokenLines (h : l ∈ tokenLines (tokens source)) :
    l.tokens.IsChain (Token.Follows source.toList) := by
  have hbegin : 0 = byteLength [] := rfl
  have hfollows : (tokens source).IsChain (Token.Follows source.toList) :=
    (tiling_tokens source).follows hbegin
  exact hfollows.infix (infix_of_mem_tokenLines h)

/-- The tokens of a line are in the order of the source. -/
theorem sorted_of_mem_tokenLines (h : l ∈ tokenLines (tokens source)) :
    l.body.Pairwise fun u t => u.span.index ≤ t.span.index := by
  have htrans : IsTrans Token fun u t => u.span.index ≤ t.span.index := ⟨fun _ _ _ => Nat.le_trans⟩
  have hsorted :=
    List.isChain_iff_pairwise.mp ((follows_of_mem_tokenLines h).imp fun _ _ hfollows => hfollows.1)
  exact hsorted.sublist (List.sublist_append_left _ _)

theorem located_of_assemble_error {e : AsmError} (h : assemble source = .error e) :
    ∃ located, Program.ofSource source = .error located ∧
      e = ⟨located.fault, .ofSpan source.toList located.span⟩ := by
  unfold assemble assembleWithRecords at h
  cases hsource : Program.ofSource source with
  | ok p =>
    rw [hsource] at h
    cases h
  | error located =>
    rw [hsource] at h
    exact ⟨located, rfl, (Except.error.inj h).symm⟩

/-- **A reported token has a line.**  What the first pass reports begins where some token of a line
does, and this token has a line of the source around it, in which there is something. -/
theorem exists_blamed (h : Program.ofSource source = .error e) :
    ∃ l ∈ tokenLines (tokens source), ∃ t, l.Blames source.utf8ByteSize e.fault t ∧
      e.span.index = t.span.index ∧ ∃ before inLine rest,
        InLineOf source.toList t.span.index before inLine rest ∧ inLine ++ rest ≠ [] := by
  obtain ⟨l, hl, t, hblames, hindex⟩ := Program.blames_of_addLines h
    (fun l hl => (ends_of_mem_tokenLines hl).2) fun l hl => sorted_of_mem_tokenLines hl
  have hcitable : t.Citable source.toList := by
    have hstands : ∀ x ∈ l.tokens, ∃ before rest, x.StandsIn source.toList before rest :=
      fun x hx => exists_standsIn source x ((infix_of_mem_tokenLines hl).subset hx)
    rw [← byteLength_toList] at hblames
    exact hblames.citable hstands (ends_of_mem_tokenLines hl).1 (follows_of_mem_tokenLines hl)
  obtain ⟨front, rest, htext, hfront, hoffset⟩ := hcitable
  obtain ⟨before, inLine, hline, hne⟩ := hoffset.exists_inLineOf
  rw [← htext, ← hfront] at hline
  exact ⟨l, hl, t, hblames, hindex, before, inLine, rest, hline, hne⟩

end JackToolchain.Hack
