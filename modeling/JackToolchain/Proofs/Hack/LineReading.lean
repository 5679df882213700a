import JackToolchain.Proofs.Hack.SourceLines

/-!
# A line of tokens is read as what the line says

The tokens of a line without its comment are determined by its characters (`Scans.uncons`).  What
the assembler reads from them the line says (`says_of_read`), and what a line says is read
(`exists_read`).  Only where a NUL character ends it, a line is not read if it says nothing.
-/

namespace JackToolchain.Hack

variable {c : Char} {code gap text rest line u : List Char} {kind : TokenKind} {t : Token}
  {ts : List Token}

/-! ### The tokens of a line -/

/-- The first token of a line. -/
theorem Scans.uncons (hu : Blanks u) (hspells : Spells rest text kind)
    (h : Scans (u ++ (text ++ rest)) ts) :
    ∃ t ts', ts = t :: ts' ∧ t.kind = kind ∧ t.text = String.ofList text ∧ Scans rest ts' := by
  generalize hcode : u ++ (text ++ rest) = code at h
  cases h with
  | nil hblanks =>
    obtain ⟨c, cs, htext⟩ := List.exists_cons_of_ne_nil hspells.ne_nil
    have hc := hspells.settled.not_blank
    rw [htext] at hc hcode
    have hmem : c ∈ code := hcode ▸ List.mem_append_right _ List.mem_cons_self
    exact absurd (hblanks c hmem) (Bool.eq_false_iff.mp (hc c rfl))
  | @cons gap rest' t ts' hgap ht _ hrest =>
    -- The lexer reads the same token in both views of the line.
    have hnext : Cursor.next ⟨u ++ (text ++ rest), 0⟩ = _ :=
      Cursor.next_of_spells (.blanks hu) hspells
    rw [hcode, Cursor.next_of_spells (.blanks hgap) ht] at hnext
    simp only [Prod.mk.injEq, tokenAt, Token.mk.injEq, Cursor.mk.injEq] at hnext
    obtain ⟨⟨hkind, htext, -⟩, rfl, -⟩ := hnext
    rw [String.ofList_toList] at htext
    exact ⟨t, ts', rfl, hkind, htext, hrest⟩

theorem Scans.eq_nil (h : Scans code ts) (hblanks : Blanks code) : ts = [] := by
  cases h with
  | nil => rfl
  | @cons gap rest t ts _ ht _ _ =>
    obtain ⟨c, cs, htext⟩ := List.exists_cons_of_ne_nil ht.ne_nil
    have hc := ht.settled.not_blank
    rw [htext] at hc hblanks
    exact absurd (hblanks c (List.mem_append_right _ List.mem_cons_self))
      (Bool.eq_false_iff.mp (hc c rfl))

theorem Spells.not_blank (h : Spells rest text kind) : ∀ c ∈ text, isBlank c = false := by
  have hpart {c : Char} (hc : isSymbolPart c = true) : isBlank c = false := (of_isSymbolPart hc).2.1
  cases h with
  | char hc _ => exact List.forall_mem_singleton.mpr (of_ofChar? hc).1
  | crlf => decide
  | symbol hc hcs _ =>
    exact List.forall_mem_cons.mpr ⟨hpart (isSymbolPart_of_isSymbolStart hc),
      fun d hd => hpart (hcs d hd)⟩
  | number hc hcs _ =>
    exact List.forall_mem_cons.mpr ⟨hpart (isSymbolPart_of_isDigit hc), fun d hd =>
      hpart (isSymbolPart_of_isDigit (hcs d hd))⟩
  | unknown _ _ hblank _ => exact List.forall_mem_singleton.mpr hblank

/-- The texts of the tokens are the characters that are not blank. -/
theorem Scans.flatMap_text (h : Scans code ts) :
    ts.flatMap (fun t => t.text.toList) = code.filter fun c => !isBlank c := by
  have hgap {gap : List Char} (h : Blanks gap) : gap.filter (fun c => !isBlank c) = [] :=
    List.filter_eq_nil_iff.mpr fun c hc => by simp [h c hc]
  induction h with
  | nil h => exact (hgap h).symm
  | cons h ht _ _ ih =>
    have htext := List.filter_eq_self.mpr fun c hc => by
      show (!isBlank c) = true
      rw [ht.not_blank c hc]
      rfl
    rw [List.flatMap_cons, ih, List.filter_append, List.filter_append, hgap h, htext,
      List.nil_append]

theorem Spells.isInstructionPart (h : Spells rest text kind)
    (htext : ∀ c ∈ text, isInstructionChar c = true) : kind.isInstructionPart = true := by
  cases h with
  | char hc _ =>
    have hchar := htext _ List.mem_cons_self
    rwa [isInstructionChar, (of_ofChar? hc).2.1, Bool.false_or, hc] at hchar
  | crlf => exact absurd (htext '\n' (by decide)) (by decide)
  | symbol | number => rfl
  | unknown hc hpart _ _ =>
    have hchar := htext _ List.mem_cons_self
    rw [isInstructionChar, hpart, hc] at hchar
    cases hchar

/-- The characters of an instruction make tokens of an instruction. -/
theorem Scans.isInstructionPart (h : Scans code ts)
    (htext : ∀ c ∈ code.filter fun c => !isBlank c, isInstructionChar c = true) :
    ∀ t ∈ ts, t.kind.isInstructionPart = true := by
  rw [← h.flatMap_text] at htext
  induction h with
  | nil => exact fun _ ht => absurd ht List.not_mem_nil
  | cons _ ht _ _ ih =>
    rw [List.flatMap_cons, List.forall_mem_append] at htext
    exact List.forall_mem_cons.mpr ⟨ht.isInstructionPart htext.1, ih htext.2⟩

/-- A token of one character, if no other character has its kind. -/
theorem Spells.eq_singleton (h : Spells rest text kind)
    (hc : ∀ d, TokenKind.ofChar? d = some kind → d = c)
    (hkind : kind ∉ [TokenKind.newline, .symbol, .number, .unknown]) : text = [c] := by
  cases h with
  | char hd _ => rw [hc _ hd]
  | crlf | symbol | number | unknown => exact absurd (by decide) hkind

theorem ofChar?_at {d : Char} (h : TokenKind.ofChar? d = some .at) : d = '@' := by
  unfold TokenKind.ofChar? at h
  split at h <;> first | rfl | cases h

theorem ofChar?_leftParen {d : Char} (h : TokenKind.ofChar? d = some .leftParen) : d = '(' := by
  unfold TokenKind.ofChar? at h
  split at h <;> first | rfl | cases h

theorem ofChar?_rightParen {d : Char} (h : TokenKind.ofChar? d = some .rightParen) : d = ')' := by
  unfold TokenKind.ofChar? at h
  split at h <;> first | rfl | cases h

theorem Spells.isSymbol {name : String} (h : Spells rest name.toList .symbol) : IsSymbol name := by
  generalize hkind : TokenKind.symbol = kind at h
  generalize htext : name.toList = text at h
  cases h with
  | symbol hc hcs _ => exact ⟨_, _, htext, hc, hcs⟩
  | char hc _ =>
    subst hkind
    unfold TokenKind.ofChar? at hc
    split at hc <;> cases hc
  | _ => cases hkind

theorem Spells.isNumber (h : Spells rest text .number) : IsNumber text := by
  generalize hkind : TokenKind.number = kind at h
  cases h with
  | number hc hcs _ => exact ⟨List.cons_ne_nil _ _, List.forall_mem_cons.mpr ⟨hc, hcs⟩⟩
  | char hc _ =>
    subst hkind
    unfold TokenKind.ofChar? at hc
    split at hc <;> cases hc
  | _ => cases hkind

/-! ### Instructions -/

theorem eq_of_splitAtChar {c : Char} {text xs ys : List Char}
    (h : splitAtChar c text = some (xs, ys)) : text = xs ++ c :: ys := by
  unfold splitAtChar at h
  split at h
  · cases h
  · next d rest hdrop =>
    obtain ⟨rfl, rfl⟩ := Prod.mk.inj (Option.some.inj h)
    have hd : d ∈ (text.dropWhile (· != c)).head? := by
      rw [hdrop]
      rfl
    have hc : d = c := bne_eq_false_iff_eq.mp (Text.of_head?_dropWhile (p := (· != c)) hd)
    rw [← hc] at hdrop ⊢
    rw [← hdrop, List.takeWhile_append_dropWhile]

namespace Instruction

/-- The instruction whose text behind the destination is known. -/
def ofCompJump (dest : Dest) (text : List Char) : Except AsmFault Instruction :=
  match splitAtChar ';' text with
  | none =>
    match Comp.ofText? (String.ofList text) with
    | some comp => .ok ⟨dest, comp, none⟩
    | none => .error (.unknownComp (String.ofList text))
  | some (comp, jump) =>
    match Comp.ofText? (String.ofList comp), Jump.ofText? (String.ofList jump) with
    | some comp, some jump => .ok ⟨dest, comp, some jump⟩
    | none, _ => .error (.unknownComp (String.ofList comp))
    | some _, none => .error (.unknownJump (String.ofList jump))

theorem ofText_eq (text : List Char) :
    ofText text = match splitAtChar '=' text with
      | none => ofCompJump {} text
      | some (dest, rest) =>
        match Dest.ofText? (String.ofList dest) with
        | some dest => ofCompJump dest rest
        | none => .error (.unknownDest (String.ofList dest)) := by
  unfold ofText ofCompJump
  cases splitAtChar '=' text with
  | none =>
    dsimp only
    cases splitAtChar ';' text with
    | none =>
      dsimp only
      cases Comp.ofText? _ <;> rfl
    | some p =>
      dsimp only
      cases Comp.ofText? _ <;> cases Jump.ofText? _ <;> rfl
  | some p =>
    dsimp only
    cases Dest.ofText? _ with
    | none => cases splitAtChar ';' p.2 <;> rfl
    | some dest =>
      cases splitAtChar ';' p.2 with
      | none =>
        dsimp only
        cases Comp.ofText? _ <;> rfl
      | some p =>
        dsimp only
        cases Comp.ofText? _ <;> cases Jump.ofText? _ <;> rfl

theorem text_of_ofCompJump {dest : Dest} {text : List Char} {i : Instruction}
    (h : ofCompJump dest text = .ok i) :
    i.dest = dest ∧ text = i.comp.text.toList ++ jumpText i.jump := by
  have hcomp {text : List Char} {comp : Comp} (h : Comp.ofText? (String.ofList text) = some comp) :
      text = comp.text.toList := by
    rw [Comp.text_eq_of_ofText? h, String.toList_ofList]
  unfold ofCompJump at h
  split at h
  · split at h
    · next hc =>
      cases h
      exact ⟨rfl, (hcomp hc).trans (List.append_nil _).symm⟩
    · cases h
  · next hsplit =>
    split at h
    · next hc hj =>
      cases h
      refine ⟨rfl, (eq_of_splitAtChar hsplit).trans ?_⟩
      rw [hcomp hc, jumpText, Jump.text_eq_of_ofText? hj, String.toList_ofList]
    · cases h
    · cases h

/-- **Only its text is read as an instruction.** -/
theorem text_of_ofText {text : List Char} {i : Instruction} (h : ofText text = .ok i) :
    text = i.text.toList := by
  rw [ofText_eq] at h
  rw [text_eq, List.append_assoc]
  split at h
  · obtain ⟨hdest, htext⟩ := text_of_ofCompJump h
    rw [hdest, if_pos (by decide)]
    exact htext
  · next dest rest hsplit =>
    split at h
    · next x hx =>
      obtain ⟨hdest, htext⟩ := text_of_ofCompJump h
      have hempty : x.text.isEmpty = false := by
        have hall : ∀ x ∈ Dest.all, x.text.isEmpty = false := by decide
        exact hall x (List.mem_of_find?_eq_some hx)
      rw [hdest, hempty, if_neg Bool.false_ne_true, Dest.text_eq_of_ofText? hx,
        String.toList_ofList, ← htext, List.append_assoc]
      exact eq_of_splitAtChar hsplit
    · cases h

end Instruction

/-! ### Statements -/

namespace TokenLine

variable {stop : Token} {ls : LocatedStatement} {o : Operand}

theorem readOperand_eq_ok (h : readOperand t = .ok o) :
    (t.kind = .symbol ∧ o = .symbol t.text) ∨
      (t.kind = .number ∧ Text.decimalValue t.text.toList ≤ maxConstant ∧
        o = .constant (Text.decimalValue t.text.toList)) := by
  unfold readOperand at h
  split at h
  · next hkind =>
    cases h
    exact .inl ⟨hkind, rfl⟩
  · next hkind =>
    dsimp only at h
    split at h
    · next hvalue =>
      cases h
      exact .inr ⟨hkind, hvalue, rfl⟩
    · cases h
  · cases h

theorem operand_of_readLoad (h : readLoad stop ts = .ok ls) :
    ∃ o, readOperand (firstOf stop ts) = .ok o ∧ expectEnd (ts.drop 1) = .ok () ∧
      ls.statement = .load o := by
  unfold readLoad at h
  cases ho : readOperand (firstOf stop ts) with
  | error e =>
    rw [ho] at h
    cases h
  | ok o =>
    rw [ho] at h
    cases hend : expectEnd (ts.drop 1) with
    | error e =>
      rw [hend] at h
      cases h
    | ok =>
      rw [hend] at h
      cases h
      exact ⟨o, rfl, rfl, rfl⟩

theorem readLoad_eq_ok (hstop : stop.kind.endsLine = true) (h : readLoad stop ts = .ok ls) :
    ∃ t o, ts = [t] ∧ readOperand t = .ok o ∧ ls.statement = .load o := by
  obtain ⟨o, ho, hend, hls⟩ := operand_of_readLoad h
  have hstop' {kind : TokenKind} (hkind : stop.kind = kind) : kind.endsLine = true := hkind ▸ hstop
  match ts with
  | [] =>
    -- The end of the line is no operand.
    rcases readOperand_eq_ok ho with ⟨hkind, -⟩ | ⟨hkind, -⟩
    · exact absurd (hstop' hkind) (by decide)
    · exact absurd (hstop' hkind) (by decide)
  | [t] => exact ⟨t, o, rfl, ho, hls⟩
  | _ :: _ :: _ => cases hend

theorem parts_of_readLabel (h : readLabel stop ts = .ok ls) :
    (firstOf stop ts).kind = .symbol ∧ (firstOf stop (ts.drop 1)).kind = .rightParen ∧
      expectEnd (ts.drop 2) = .ok () ∧ ls.statement = .label (firstOf stop ts).text := by
  unfold readLabel at h
  dsimp only at h
  by_cases hname : (firstOf stop ts).kind = .symbol
  · by_cases hclose : (firstOf stop (ts.drop 1)).kind = .rightParen
    · rw [if_neg (not_not_intro hname), if_neg (not_not_intro hclose)] at h
      cases hend : expectEnd (ts.drop 2) with
      | error e =>
        rw [hend] at h
        cases h
      | ok =>
        rw [hend] at h
        cases h
        exact ⟨hname, hclose, rfl, rfl⟩
    · rw [if_neg (not_not_intro hname), if_pos hclose] at h
      cases h
  · rw [if_pos hname] at h
    cases h

theorem readLabel_eq_ok (hstop : stop.kind.endsLine = true) (h : readLabel stop ts = .ok ls) :
    ∃ name close, ts = [name, close] ∧ name.kind = .symbol ∧ close.kind = .rightParen ∧
      ls.statement = .label name.text := by
  obtain ⟨hname, hclose, hend, hls⟩ := parts_of_readLabel h
  have hstop' {kind : TokenKind} (hkind : stop.kind = kind) : kind.endsLine = true := hkind ▸ hstop
  match ts with
  | [] => exact absurd (hstop' hname) (by decide)
  | [name] => exact absurd (hstop' hclose) (by decide)
  | [name, close] => exact ⟨name, close, rfl, hname, hclose, hls⟩
  | _ :: _ :: _ :: _ => cases hend

theorem readCompute_eq_ok (h : readCompute t ts = .ok ls) :
    ∃ i, (t :: ts).flatMap (fun t => t.text.toList) = i.text.toList ∧
      ls.statement = .compute i := by
  unfold readCompute at h
  split at h
  · cases h
  · dsimp only at h
    split at h
    · next i hi =>
      cases h
      exact ⟨i, Instruction.text_of_ofText hi, rfl⟩
    · cases h

theorem readLabel_pair {name close : Token} (hname : name.kind = .symbol)
    (hclose : close.kind = .rightParen) :
    readLabel stop [name, close] = .ok ⟨.label name.text, name.span⟩ := by
  unfold readLabel
  dsimp only [firstOf, List.drop]
  rw [if_neg (not_not_intro hname), if_neg (not_not_intro hclose)]
  rfl

theorem readLoad_singleton (h : readOperand t = .ok o) :
    readLoad stop [t] = .ok ⟨.load o, t.span⟩ := by
  unfold readLoad
  dsimp only [firstOf, List.drop]
  rw [h]
  rfl

theorem readCompute_of_text {i : Instruction}
    (hkinds : ∀ x ∈ t :: ts, x.kind.isInstructionPart = true)
    (htext : (t :: ts).flatMap (fun t => t.text.toList) = i.text.toList) :
    ∃ span, readCompute t ts = .ok ⟨.compute i, span⟩ := by
  have hfind : (t :: ts).find? (fun t => !t.kind.isInstructionPart) = none := by
    rw [List.find?_eq_none]
    intro x hx
    simp [hkinds x hx]
  unfold readCompute
  rw [hfind]
  dsimp only
  rw [htext, i.ofText_text]
  exact ⟨_, rfl⟩

end TokenLine

/-! ### Lines -/

variable {size : Nat} {l : TokenLine} {r : Option LocatedStatement} {s : Option Statement}
  {st : Stretch}

/-- The statement of a line that begins with a token. -/
theorem read_cons (stop : Token) :
    (⟨t :: ts, stop⟩ : TokenLine).read size = some <$> (match t.kind with
      | .at => TokenLine.readLoad stop ts
      | .leftParen => TokenLine.readLabel stop ts
      | .unknown => .error ⟨.unknownToken t.text, t.span⟩
      | _ => TokenLine.readCompute t ts) := by
  unfold TokenLine.read
  dsimp only
  generalize t.kind = kind
  cases kind <;> rfl

theorem of_map_eq_ok {x : Except Located LocatedStatement} (h : some <$> x = .ok r) :
    ∃ ls, x = .ok ls ∧ r = some ls := by
  cases x with
  | error e => cases h
  | ok ls => exact ⟨ls, rfl, (Except.ok.inj h).symm⟩

/-- What a line with an operand says. -/
theorem lineSays_of_operand {o : Operand} (hu : Blanks u) (h : Scans code [t])
    (ho : TokenLine.readOperand t = .ok o) : LineSays (u ++ '@' :: code) (some (.load o)) := by
  cases h with
  | cons hv ht _ hnil =>
    cases hnil with
    | nil hw =>
      rcases TokenLine.readOperand_eq_ok ho with ⟨hkind, rfl⟩ | ⟨hkind, hvalue, rfl⟩
      · rw [hkind] at ht
        exact .symbol hu hv hw ht.isSymbol
      · rw [hkind] at ht
        rw [Text.decimalValue_eq] at hvalue ⊢
        exact .constant hu hv hw ht.isNumber hvalue

/-- What a line with a label says. -/
theorem lineSays_of_label {name close : Token} (hu : Blanks u) (h : Scans code [name, close])
    (hname : name.kind = .symbol) (hclose : close.kind = .rightParen) :
    LineSays (u ++ '(' :: code) (some (.label name.text)) := by
  cases h with
  | cons hv ht _ hrest =>
    cases hrest with
    | cons hw hparen _ hnil =>
      cases hnil with
      | nil hx =>
        rw [hname] at ht
        rw [hclose] at hparen
        rw [hparen.eq_singleton (fun _ => ofChar?_rightParen) (by decide)]
        exact .label hu hv hw hx ht.isSymbol

/-- What a stretch says, if it is right.  Where a NUL character ends it, it has to say something. -/
def Stretch.Says (st : Stretch) (s : Option Statement) : Prop :=
  LineSays st.code s ∧ (st.nul = true → s ≠ none)

/-- **A line is read as something that it says.** -/
theorem says_of_read (h : ScannedAs size st l) (hread : l.read size = .ok r) :
    st.Says (r.map (·.statement)) := by
  obtain ⟨hscans, hends, hstop⟩ := h
  obtain ⟨body, stop⟩ := l
  obtain ⟨code, nul⟩ := st
  dsimp only at hscans hends hstop
  have htext := hscans.flatMap_text
  cases hscans with
  | nil hblanks =>
    -- Nothing is read of an empty line, and an empty line that a NUL character ends is an error.
    unfold TokenLine.read at hread
    dsimp only at hread
    split at hread
    · cases hread
    · next hnul =>
      cases hread
      exact ⟨.nothing hblanks, fun h => absurd (hstop.mp h) hnul⟩
  | @cons gap rest t ts hgap ht _ hrest =>
    -- The first token decides what is read, and no other character has a token of its kind.
    rw [read_cons] at hread
    obtain ⟨ls, hls, rfl⟩ := of_map_eq_ok hread
    rw [Option.map_some]
    refine ⟨?_, fun _ => Option.some_ne_none _⟩
    split at hls
    · next hkind =>
      obtain ⟨x, o, rfl, ho, hload⟩ := TokenLine.readLoad_eq_ok hends hls
      rw [hkind] at ht
      rw [hload, ht.eq_singleton (fun _ => ofChar?_at) (by decide)]
      exact lineSays_of_operand hgap hrest ho
    · next hkind =>
      obtain ⟨name, close, rfl, hname, hclose, hlabel⟩ := TokenLine.readLabel_eq_ok hends hls
      rw [hkind] at ht
      rw [hlabel, ht.eq_singleton (fun _ => ofChar?_leftParen) (by decide)]
      exact lineSays_of_label hgap hrest hname hclose
    · cases hls
    · obtain ⟨i, hi, hcompute⟩ := TokenLine.readCompute_eq_ok hls
      rw [hcompute]
      exact .compute (htext.symm.trans hi)

/-! ### What a line says is read -/

section
variable {n d : Token} {stop : Token}

theorem read_load {o : Operand} (ht : t.kind = .at) (ho : TokenLine.readOperand n = .ok o) :
    (⟨[t, n], stop⟩ : TokenLine).read size = .ok (some ⟨.load o, n.span⟩) := by
  rw [read_cons, ht]
  dsimp only
  rw [TokenLine.readLoad_singleton ho]
  rfl

theorem read_label (ht : t.kind = .leftParen) (hn : n.kind = .symbol) (hd : d.kind = .rightParen) :
    (⟨[t, n, d], stop⟩ : TokenLine).read size = .ok (some ⟨.label n.text, n.span⟩) := by
  rw [read_cons, ht]
  dsimp only
  rw [TokenLine.readLabel_pair hn hd]
  rfl

theorem read_compute {i : Instruction} (hkinds : ∀ x ∈ ts, x.kind.isInstructionPart = true)
    (htext : ts.flatMap (fun t => t.text.toList) = i.text.toList) :
    ∃ span, (⟨ts, stop⟩ : TokenLine).read size = .ok (some ⟨.compute i, span⟩) := by
  cases ts with
  | nil => exact absurd htext.symm i.text_ne_nil
  | cons t ts =>
    obtain ⟨span, hread⟩ := TokenLine.readCompute_of_text hkinds htext
    refine ⟨span, Eq.trans ?_ (congrArg (some <$> ·) hread)⟩
    rw [read_cons]
    -- The kinds that begin another line are no parts of an instruction.
    have ht := hkinds t List.mem_cons_self
    revert ht
    generalize t.kind = kind
    cases kind <;> first | exact fun _ => rfl | exact fun h => absurd h (by decide)

end

theorem head?_blanks_append {p : Char → Bool} {w x : List Char} (hw : Blanks w)
    (hblank : ∀ c, isBlank c = true → p c = false) (hx : ∀ c ∈ x.head?, p c = false) :
    ∀ c ∈ (w ++ x).head?, p c = false := by
  cases w with
  | nil => exact hx
  | cons d w =>
    rintro _ ⟨⟩
    exact hblank d (hw d List.mem_cons_self)

theorem not_isSymbolPart_of_isBlank (h : isBlank c = true) : isSymbolPart c = false := by
  rw [Bool.eq_false_iff]
  intro hc
  rw [(of_isSymbolPart hc).2.1] at h
  cases h

theorem not_isDigit_of_isBlank (h : isBlank c = true) : c.isDigit = false :=
  (Bool.or_eq_false_iff.mp (not_isSymbolPart_of_isBlank h)).2

theorem spells_symbol {name : String} {w x : List Char} (hname : IsSymbol name) (hw : Blanks w)
    (hx : ∀ c ∈ x.head?, isSymbolPart c = false) : Spells (w ++ x) name.toList .symbol := by
  obtain ⟨c, cs, hlist, hc, hcs⟩ := hname
  rw [hlist]
  exact .symbol hc hcs (head?_blanks_append hw (fun _ => not_isSymbolPart_of_isBlank) hx)

theorem spells_number {digits w : List Char} (hdigits : IsNumber digits) (hw : Blanks w) :
    Spells w digits .number := by
  obtain ⟨hne, hall⟩ := hdigits
  obtain ⟨c, cs, rfl⟩ := List.exists_cons_of_ne_nil hne
  obtain ⟨hc, hcs⟩ := List.forall_mem_cons.mp hall
  have hstop :=
    head?_blanks_append (p := Char.isDigit) (x := []) hw (fun _ => not_isDigit_of_isBlank) nofun
  rw [List.append_nil] at hstop
  exact .number hc hcs hstop

/-- **What a line says is read.** -/
theorem exists_read (h : ScannedAs size st l) (h' : st.Says s) :
    ∃ r, l.read size = .ok r ∧ r.map (·.statement) = s := by
  obtain ⟨hscans, hends, hstop⟩ := h
  obtain ⟨hmeans, hnul⟩ := h'
  obtain ⟨body, stop⟩ := l
  obtain ⟨code, nul⟩ := st
  dsimp only at hscans hends hstop hmeans hnul
  -- What the line says tells which tokens it has, one after the other.
  cases hmeans with
  | nothing hblanks =>
    obtain rfl := hscans.eq_nil hblanks
    exact ⟨none, if_neg fun h => hnul (hstop.mpr h) rfl, rfl⟩
  | @label u v w x name hu hv hw hx hname =>
    have hopen : Spells (v ++ (name.toList ++ (w ++ ')' :: x))) ['('] .leftParen := .char rfl nofun
    have hclose : Spells x [')'] .rightParen := .char rfl nofun
    have hparen : ∀ c ∈ (')' :: x).head?, isSymbolPart c = false := by
      rintro _ ⟨⟩
      decide
    obtain ⟨t, ts, rfl, ht, -, hscans⟩ := hscans.uncons hu hopen
    obtain ⟨n, ts, rfl, hn, htext, hscans⟩ := hscans.uncons hv (spells_symbol hname hw hparen)
    obtain ⟨d, ts, rfl, hd, -, hscans⟩ := hscans.uncons hw hclose
    obtain rfl := hscans.eq_nil hx
    refine ⟨_, read_label ht hn hd, ?_⟩
    rw [htext, String.ofList_toList]
    rfl
  | @symbol u v w name hu hv hw hname =>
    have hsign : Spells (v ++ (name.toList ++ w)) ['@'] .at := .char rfl nofun
    have hsymbol := spells_symbol (x := []) hname hw nofun
    rw [List.append_nil] at hsymbol
    obtain ⟨t, ts, rfl, ht, -, hscans⟩ := hscans.uncons hu hsign
    obtain ⟨n, ts, rfl, hn, htext, hscans⟩ := hscans.uncons hv hsymbol
    obtain rfl := hscans.eq_nil hw
    rw [String.ofList_toList] at htext
    have ho : TokenLine.readOperand n = .ok (.symbol name) := by
      unfold TokenLine.readOperand
      rw [hn, htext]
    exact ⟨_, read_load ht ho, rfl⟩
  | @constant u v w digits hu hv hw hdigits hvalue =>
    have hsign : Spells (v ++ (digits ++ w)) ['@'] .at := .char rfl nofun
    obtain ⟨t, ts, rfl, ht, -, hscans⟩ := hscans.uncons hu hsign
    obtain ⟨n, ts, rfl, hn, htext, hscans⟩ := hscans.uncons hv (spells_number hdigits hw)
    obtain rfl := hscans.eq_nil hw
    have ho : TokenLine.readOperand n = .ok (.constant (Nat.ofDigitChars 10 digits 0)) := by
      unfold TokenLine.readOperand
      rw [hn, htext]
      dsimp only
      rw [String.toList_ofList, Text.decimalValue_eq, if_pos hvalue]
    exact ⟨_, read_load ht ho, rfl⟩
  | @compute _ i hi =>
    have hkinds := hscans.isInstructionPart fun c hc => by
      rw [hi] at hc
      exact i.isInstructionChar_of_mem_text c hc
    obtain ⟨span, hread⟩ := read_compute hkinds (hscans.flatMap_text.trans hi)
    exact ⟨_, hread, rfl⟩

end JackToolchain.Hack
