import JackToolchain.Proofs.Jack.Items
import JackToolchain.Proofs.Jack.Layout
import JackToolchain.Proofs.Text.Decimal
import JackToolchain.Proofs.Text.Characters

/-!
# Reading along a layout

A layout says what the items of a source are, and the lexer finds just these.  A gap is skipped
(`skipTrivia_gap`), a lexeme is read (`next_of_spells`), and what is misspelled is reported
(`next_of_misspelled`), each whatever follows; so the items of a layout are the items that the lexer
lists (`items_of_layout`).  Every source has a layout (`exists_layout`): behind a gap there is the
end of the source, a lexeme, or something misspelled.
-/

namespace JackToolchain.Jack

variable {c : Char} {cs body gap piece text rest word : List Char} {p : Position} {kind : Kind}
  {fault : LexFault}

theorem Position.after_append (p : Position) (xs ys : List Char) :
    p.after (xs ++ ys) = (p.after xs).after ys :=
  List.foldl_append

/-! ### Comments and gaps -/

/-- A comment goes on behind a character if it does not end with it. -/
theorem not_commentEnd_infix_of_cons (h : ¬commentEnd <:+: c :: cs) : ¬commentEnd <:+: cs :=
  fun hcs => h (hcs.trans (List.suffix_cons c cs).isInfix)

theorem closeComment_cons (h : ¬commentEnd <+: c :: cs) :
    closeComment (c :: cs) p = closeComment cs (p.advance c) := by
  refine closeComment.eq_3 p c cs fun rest hc hcs => h ?_
  rw [hc, hcs]
  exact ⟨rest, rfl⟩

theorem closeComment_of_open (h : ¬commentEnd <:+: body) :
    closeComment body p = .error (p.after body) := by
  induction body generalizing p with
  | nil => rfl
  | cons c body ih =>
    rw [closeComment_cons fun hc => h hc.isInfix, ih (not_commentEnd_infix_of_cons h)]
    rfl

theorem closeComment_of_closed (h : ¬commentEnd <:+: body ++ ['*']) :
    closeComment (body ++ commentEnd ++ rest) p = .ok ⟨rest, p.after (body ++ commentEnd)⟩ := by
  induction body generalizing p with
  | nil => rfl
  | cons c body ih =>
    have hstart : ¬commentEnd <+: c :: (body ++ commentEnd ++ rest) := by
      -- The first two characters are the same with or without what follows the star.
      intro hc
      apply h
      rw [commentEnd, List.cons_prefix_cons] at hc
      obtain ⟨hc, hbody⟩ := hc
      cases body with
      | nil => cases (List.cons_prefix_cons.mp hbody).1
      | cons d body =>
        obtain ⟨hd, -⟩ := List.cons_prefix_cons.mp hbody
        exact ⟨[], body ++ ['*'], by rw [← hc, ← hd]; rfl⟩
    rw [List.cons_append, List.cons_append, closeComment_cons hstart,
      ih (not_commentEnd_infix_of_cons h)]
    rfl

/-- The first end of a comment. -/
theorem exists_closed (h : commentEnd <:+: cs) :
    ∃ body rest, cs = body ++ commentEnd ++ rest ∧ ¬commentEnd <:+: body ++ ['*'] := by
  induction cs with
  | nil => cases List.infix_nil.mp h
  | cons c cs ih =>
    -- The first end is here, or else it is the first one behind this character.
    by_cases hc : commentEnd <+: c :: cs
    · obtain ⟨rest, hrest⟩ := hc
      exact ⟨[], rest, hrest.symm, by decide⟩
    · obtain ⟨body, rest, rfl, hbody⟩ := ih ((List.infix_cons_iff.mp h).resolve_left hc)
      refine ⟨c :: body, rest, rfl, fun hclosed => ?_⟩
      rcases List.infix_cons_iff.mp hclosed with hstart | hclosed
      · refine hc (hstart.trans ?_)
        exact ⟨'/' :: rest, by simp [commentEnd]⟩
      · exact hbody hclosed

theorem skipTrivia_nil (p : Position) : skipTrivia [] p = .ok ⟨[], p⟩ := by
  rw [skipTrivia.eq_def]

theorem skipTrivia_line (cs : List Char) (p : Position) :
    skipTrivia ('/' :: '/' :: cs) p = skipTrivia (cs.dropWhile (· != '\n'))
      (((p.advance '/').advance '/').after (cs.takeWhile (· != '\n'))) := by
  rw [skipTrivia.eq_def]
  rfl

/-- A block comment is skipped if it is closed. -/
theorem skipTrivia_block {e : Except Position Cursor}
    (h : closeComment cs ((p.advance '/').advance '*') = e) :
    skipTrivia ('/' :: '*' :: cs) p = (match e with
      | .error stop => .error ⟨p, stop⟩
      | .ok d => skipTrivia d.rest d.pos) := by
  rw [skipTrivia.eq_def]
  split
  case h_1 heq => cases heq
  case h_2 heq => exact absurd (List.cons.inj (List.cons.inj heq).2).1 (by decide)
  case h_3 heq =>
    cases heq
    split
    · next h' =>
      cases h.symm.trans h'
      rfl
    · next h' =>
      cases h.symm.trans h'
      rfl
  case h_4 hblock heq =>
    cases heq
    exact absurd rfl (hblock cs rfl)

/-- Where no comment begins, a blank is skipped and nothing else. -/
theorem skipTrivia_cons (h : c = '/' → ∀ d ∈ cs.head?, d ≠ '/' ∧ d ≠ '*') :
    skipTrivia (c :: cs) p = if Text.isBlank c then skipTrivia cs (p.advance c)
      else .ok ⟨c :: cs, p⟩ := by
  rw [skipTrivia.eq_def]
  split
  case h_1 heq => cases heq
  case h_2 heq =>
    cases heq
    exact absurd rfl (h rfl '/' rfl).1
  case h_3 heq =>
    cases heq
    exact absurd rfl (h rfl '*' rfl).2
  case h_4 heq =>
    cases heq
    rfl

theorem slash_ne_of_isBlank (h : Text.isBlank c = true) : c ≠ '/' := by
  rintro rfl
  exact absurd h (by decide)

theorem skipTrivia_trivium (h : Trivium rest piece) :
    skipTrivia (piece ++ rest) p = skipTrivia rest (p.after piece) := by
  cases h with
  | blank hc =>
    exact (skipTrivia_cons fun hslash => absurd hslash (slash_ne_of_isBlank hc)).trans (if_pos hc)
  | @lineComment body hbody hrest =>
    have hline : ∀ c ∈ body, (c != '\n') = true :=
      fun c hc => bne_iff_ne.mpr fun heq => hbody (heq ▸ hc)
    have hstop : ∀ c ∈ rest.head?, (c != '\n') = false := fun c hc => by rw [hrest c hc]; rfl
    show skipTrivia ('/' :: '/' :: (body ++ rest)) p = _
    rw [skipTrivia_line, Text.takeWhile_run hline hstop, Text.dropWhile_run hline hstop]
    rfl
  | @blockComment body hbody =>
    show skipTrivia ('/' :: '*' :: (body ++ commentEnd ++ rest)) p = _
    exact skipTrivia_block (closeComment_of_closed hbody)

/-- Gaps are skipped. -/
theorem skipTrivia_gap (h : Gap rest gap) :
    skipTrivia (gap ++ rest) p = skipTrivia rest (p.after gap) := by
  induction h generalizing p with
  | nil => rfl
  | cons hpiece _ ih => rw [List.append_assoc, skipTrivia_trivium hpiece, ih, Position.after_append]

/-! ### Words -/

theorem Symbol.ofChar?_eq_none (h : ∀ s : Symbol, c ≠ s.char) : Symbol.ofChar? c = none := by
  cases hs : Symbol.ofChar? c with
  | none => rfl
  | some s => exact absurd (Symbol.ofChar?_eq_some_iff.mp hs) (h s)

theorem isWordChar_iff : isWordChar c = true ↔ IsWordlike c := by
  unfold isWordChar
  rw [Bool.and_eq_true, Bool.and_eq_true, Bool.not_eq_true', bne_iff_ne, Option.isNone_iff_eq_none]
  constructor
  · rintro ⟨⟨hblank, hquote⟩, hsymbol⟩
    refine ⟨hblank, hquote, fun s hs => ?_⟩
    rw [hs, Symbol.ofChar?_char] at hsymbol
    cases hsymbol
  · intro h
    exact ⟨⟨h.not_blank, h.not_quote⟩, Symbol.ofChar?_eq_none h.not_symbol⟩

theorem isWordChar_eq_false_iff : isWordChar c = false ↔ ¬IsWordlike c := by
  rw [← Bool.not_eq_true, isWordChar_iff]

/-- A word is read to its end. -/
theorem word_of_run (h : Run rest (c :: cs)) :
    Jack.word c (cs ++ rest) p = (match classify (c :: cs) with
      | .ok kind => (.ok (tokenAt p kind (c :: cs)), ⟨rest, p.after (c :: cs)⟩)
      | .error fault => (.error (errorAt p fault), ⟨rest, p.after (c :: cs)⟩)) := by
  have hword : ∀ d ∈ cs, isWordChar d = true :=
    fun d hd => isWordChar_iff.mpr (h.wordlike d (List.mem_cons_of_mem c hd))
  have hstop : ∀ d ∈ rest.head?, isWordChar d = false :=
    fun d hd => isWordChar_eq_false_iff.mpr (h.longest d hd)
  unfold Jack.word
  dsimp only
  -- What is left is a matter of computation only.
  rewrite [Text.takeWhile_run hword hstop, Text.dropWhile_run hword hstop]
  rfl

theorem isIdentifier_iff :
    (isIdentStart c && cs.all isIdentPart) = true ↔ IsIdentifier (c :: cs) := by
  simp only [isIdentStart, isIdentPart, IsIdentifier, Bool.and_eq_true, Bool.or_eq_true, beq_iff_eq,
    List.all_eq_true, or_comm]

theorem not_isDigit_of_isIdentifier (h : IsIdentifier (c :: cs)) : c.isDigit = false := by
  rcases h.1 with hc | rfl
  · unfold Char.isAlpha Char.isUpper Char.isLower at hc
    simp only [Char.isDigit, Bool.or_eq_true, Bool.and_eq_true,
      decide_eq_true_eq, Bool.and_eq_false_iff, decide_eq_false_iff_not] at hc ⊢
    grind
  · rfl

/-- Reserved words are identifiers otherwise. -/
theorem isIdentifier_of_isReserved (h : IsReserved word) : IsIdentifier word := by
  obtain ⟨k, rfl⟩ := h
  cases k <;> decide

theorem not_isReserved_of_isDigit (hc : c.isDigit = true) : ¬IsReserved (c :: cs) := by
  rintro ⟨k, hk⟩
  have hhead : ∀ k : Keyword, ∀ d ∈ k.text.toList.head?, d.isDigit = false := by
    intro k
    cases k <;> decide
  rw [hhead k c (by rw [hk]; rfl)] at hc
  cases hc

theorem ofText?_of_not_isReserved (h : ¬IsReserved word) :
    Keyword.ofText? (String.ofList word) = none := by
  cases hk : Keyword.ofText? (String.ofList word) with
  | none => rfl
  | some k =>
    refine absurd ⟨k, ?_⟩ h
    rw [Keyword.text_eq_of_ofText? hk, String.toList_ofList]

theorem classify_keyword (k : Keyword) : classify k.text.toList = .ok (.keyword k) := by
  unfold classify
  rw [String.ofList_toList, Keyword.ofText?_text]

theorem all_isDigit_iff : cs.all Char.isDigit = true ↔ AllDigits cs := List.all_eq_true

theorem allDigits_cons : AllDigits (c :: cs) ↔ c.isDigit = true ∧ AllDigits cs :=
  List.forall_mem_cons

theorem classify_digit (hc : c.isDigit = true) :
    classify (c :: cs) =
      if AllDigits cs then
        if Nat.ofDigitChars 10 (c :: cs) 0 ≤ maxInt
          then .ok (.int (Nat.ofDigitChars 10 (c :: cs) 0))
        else .error (.integerOutOfRange (String.ofList (c :: cs)))
      else .error (.malformedInteger (String.ofList (c :: cs))) := by
  unfold classify
  rw [ofText?_of_not_isReserved (not_isReserved_of_isDigit hc)]
  dsimp only
  rw [if_pos hc, Text.decimalValue_eq]
  simp only [all_isDigit_iff]

theorem classify_not_digit (hc : c.isDigit = false) (h : ¬IsReserved (c :: cs)) :
    classify (c :: cs) =
      if IsIdentifier (c :: cs) then .ok .ident
      else .error (.invalidIdentifier (String.ofList (c :: cs))) := by
  unfold classify
  rw [ofText?_of_not_isReserved h]
  dsimp only
  rw [if_neg (Bool.eq_false_iff.mp hc)]
  simp only [isIdentifier_iff]

/-! ### Lexemes -/

theorem next_of_lexeme (hblank : Text.isBlank c = false)
    (hslash : c = '/' → ∀ d ∈ cs.head?, d ≠ '/' ∧ d ≠ '*') :
    (⟨c :: cs, p⟩ : Cursor).next = lexeme c cs p := by
  unfold Cursor.next
  dsimp only
  rw [skipTrivia_cons hslash, if_neg (Bool.eq_false_iff.mp hblank)]

theorem next_of_quote : (⟨'"' :: cs, p⟩ : Cursor).next = stringConstant cs p :=
  (next_of_lexeme (by decide) (fun h => absurd h (by decide))).trans (if_pos rfl)

theorem next_of_symbol (s : Symbol) (h : s = .slash → ∀ d ∈ cs.head?, d ≠ '/' ∧ d ≠ '*') :
    (⟨s.char :: cs, p⟩ : Cursor).next = (.ok (tokenAt p (.symbol s) [s.char]),
      ⟨cs, p.advance s.char⟩) := by
  have hblank : Text.isBlank s.char = false := by cases s <;> decide
  have hquote : s.char ≠ '"' := by cases s <;> decide
  have hslash : s.char = '/' → s = .slash := by cases s <;> decide
  rw [next_of_lexeme hblank fun hc => h (hslash hc)]
  unfold lexeme
  rw [if_neg hquote, Symbol.ofChar?_char]

theorem next_of_run (h : Run rest word) :
    (⟨word ++ rest, p⟩ : Cursor).next = (match classify word with
      | .ok kind => (.ok (tokenAt p kind word), ⟨rest, p.after word⟩)
      | .error fault => (.error (errorAt p fault), ⟨rest, p.after word⟩)) := by
  obtain ⟨c, cs, rfl⟩ := List.exists_cons_of_ne_nil h.ne_nil
  obtain ⟨hblank, hquote, hsymbol⟩ := h.wordlike c List.mem_cons_self
  rw [List.cons_append, next_of_lexeme hblank fun hc => absurd hc (hsymbol .slash)]
  unfold lexeme
  rw [if_neg hquote, Symbol.ofChar?_eq_none hsymbol]
  exact word_of_run h

theorem isStringChar_iff : isStringChar c = true ↔ c ≠ '"' ∧ c ≠ '\n' := by
  unfold isStringChar
  rw [Bool.and_eq_true, bne_iff_ne, bne_iff_ne]

theorem eq_of_isStringChar_eq_false (h : isStringChar c = false) : c = '"' ∨ c = '\n' := by
  unfold isStringChar at h
  rwa [Bool.and_eq_false_iff, bne_eq_false_iff_eq, bne_eq_false_iff_eq] at h

theorem isStringChar_of_mem (hquote : '"' ∉ body) (hline : '\n' ∉ body) :
    ∀ c ∈ body, isStringChar c = true :=
  fun _ hc => isStringChar_iff.mpr ⟨fun h => hquote (h ▸ hc), fun h => hline (h ▸ hc)⟩

/-- **A lexeme is read.** -/
theorem next_of_spells (h : Spells rest text kind) :
    (⟨text ++ rest, p⟩ : Cursor).next = (.ok (tokenAt p kind text), ⟨rest, p.after text⟩) := by
  cases h with
  | symbol s hs => exact next_of_symbol s hs
  | @string body hquote hline =>
    have hbody := isStringChar_of_mem hquote hline
    have hstop : ∀ c ∈ ('"' :: rest).head?, isStringChar c = false := by
      rintro c ⟨⟩
      rfl
    rw [List.cons_append, List.append_assoc, List.singleton_append, next_of_quote]
    unfold stringConstant
    rw [Text.takeWhile_run hbody hstop, Text.dropWhile_run hbody hstop]
    dsimp only
    rw [if_pos rfl, ← List.cons_append, Position.after_append]
    rfl
  | keyword k hrun => rw [next_of_run hrun, classify_keyword]
  | int hrun hdigits hvalue =>
    obtain ⟨c, cs, rfl⟩ := List.exists_cons_of_ne_nil hrun.ne_nil
    obtain ⟨hc, hcs⟩ := allDigits_cons.mp hdigits
    rw [next_of_run hrun, classify_digit hc, if_pos hcs, if_pos hvalue]
  | ident hrun hident hreserved =>
    obtain ⟨c, cs, rfl⟩ := List.exists_cons_of_ne_nil hrun.ne_nil
    have hc : c.isDigit = false := not_isDigit_of_isIdentifier hident
    rw [next_of_run hrun, classify_not_digit hc hreserved, if_pos hident]

/-- **A misspelling is reported.** -/
theorem next_of_misspelled (h : Misspelled rest text fault) :
    (⟨text ++ rest, p⟩ : Cursor).next.1 = .error (errorAt p fault) := by
  cases h with
  | @unterminatedString body hquote hline hrest =>
    -- The string is read up to the end of the line, where there is no quote.
    have hbody := isStringChar_of_mem hquote hline
    have hstop : ∀ c ∈ rest.head?, isStringChar c = false := fun c hc => by rw [hrest c hc]; rfl
    rw [List.cons_append, next_of_quote]
    unfold stringConstant
    rw [Text.takeWhile_run hbody hstop, Text.dropWhile_run hbody hstop]
    cases rest with
    | nil => rfl
    | cons c cs =>
      rw [hrest c rfl]
      rfl
  | @unterminatedComment body hrest hbody =>
    rw [hrest, List.append_nil]
    unfold Cursor.next
    dsimp only
    rw [skipTrivia_block (closeComment_of_open hbody)]
  | integerOutOfRange hrun hdigits hvalue =>
    obtain ⟨c, cs, rfl⟩ := List.exists_cons_of_ne_nil hrun.ne_nil
    obtain ⟨hc, hcs⟩ := allDigits_cons.mp hdigits
    rw [next_of_run hrun, classify_digit hc, if_pos hcs, if_neg (Nat.not_le_of_lt hvalue)]
  | malformedInteger hrun hc hcs => rw [next_of_run hrun, classify_digit hc, if_neg hcs]
  | invalidIdentifier hrun hc hident =>
    rw [next_of_run hrun, classify_not_digit hc (mt isIdentifier_of_isReserved hident),
      if_neg hident]

/-! ### The items of a layout -/

theorem next_of_gap (h : Gap rest gap) :
    (⟨gap ++ rest, p⟩ : Cursor).next = (⟨rest, p.after gap⟩ : Cursor).next := by
  unfold Cursor.next
  dsimp only
  rw [skipTrivia_gap h]

theorem next_of_nil : (⟨[], p⟩ : Cursor).next = (.ok (endToken p), ⟨[], p.pastEnd⟩) := by
  unfold Cursor.next
  dsimp only
  rw [skipTrivia_nil]
  rfl

theorem Spells.kind_ne_eos (h : Spells rest text kind) : kind ≠ .eos := by
  rintro rfl
  cases h

/-- **No other items.**  The lexer finds the items of a layout. -/
theorem items_of_layout {items : List Item} (h : Layout p cs items) :
    (⟨cs, p⟩ : Cursor).items = items := by
  induction h with
  | @eos p gap hgap =>
    have hnext : (⟨gap, p⟩ : Cursor).next = (.ok (endToken (p.after gap)),
        ⟨[], (p.after gap).pastEnd⟩) := by
      rw [← next_of_nil, ← next_of_gap hgap, List.append_nil]
    exact Cursor.items_of_next_ok hnext
  | token hgap hspells _ ih =>
    rw [Cursor.items_of_next_ok ((next_of_gap hgap).trans (next_of_spells hspells)),
      if_neg (show (tokenAt _ _ _).kind ≠ .eos from hspells.kind_ne_eos), ih]
  | @error p gap text rest fault hgap hwrong =>
    have hnext := (congrArg Prod.fst (next_of_gap (p := p) hgap)).trans (next_of_misspelled hwrong)
    exact Cursor.items_of_next_error (Prod.ext hnext rfl)

/-! ### Every source has a layout -/

/-- What stands behind a gap. -/
inductive Settled : List Char → Prop where
  | eos : Settled []
  | openComment {body : List Char} : ¬commentEnd <:+: body → Settled ('/' :: '*' :: body)
  | lexeme {c : Char} {cs : List Char} : Text.isBlank c = false →
      (c = '/' → ∀ d ∈ cs.head?, d ≠ '/' ∧ d ≠ '*') → Settled (c :: cs)

/-- Every source begins with a gap, which may be empty. -/
theorem exists_gap (cs : List Char) :
    ∃ gap rest, cs = gap ++ rest ∧ Gap rest gap ∧ Settled rest := by
  induction hn : cs.length using Nat.strongRecOn generalizing cs with
  | ind n ih =>
    subst hn
    have hsettled {behind : List Char} (h : Settled behind) :
        ∃ gap rest, behind = gap ++ rest ∧ Gap rest gap ∧ Settled rest := ⟨[], behind, rfl, .nil, h⟩
    -- A piece of a gap, and what is left behind it.
    have hpiece {piece left : List Char} (htrivium : Trivium left piece)
        (hleft : left.length < cs.length) :
        ∃ gap rest, piece ++ left = gap ++ rest ∧ Gap rest gap ∧ Settled rest := by
      obtain ⟨gap, rest, rfl, hgap, hrest⟩ := ih _ hleft left rfl
      exact ⟨piece ++ gap, rest, (List.append_assoc ..).symm, .cons htrivium hgap, hrest⟩
    cases cs with
    | nil => exact hsettled .eos
    | cons c cs =>
      by_cases hblank : Text.isBlank c = true
      · exact hpiece (.blank hblank) (Nat.lt_succ_self _)
      · rw [Bool.not_eq_true] at hblank
        by_cases hslash : c = '/' ∧ ∃ d ∈ cs.head?, d = '/' ∨ d = '*'
        · obtain ⟨rfl, d, hd, hopen⟩ := hslash
          obtain ⟨cs, rfl⟩ := List.head?_eq_some_iff.mp hd
          rcases hopen with rfl | rfl
          -- A line comment always ends, if only at the end of the source; a block comment may be
          -- left open.
          · have htrivium : Trivium (cs.dropWhile (· != '\n'))
                ('/' :: '/' :: cs.takeWhile (· != '\n')) :=
              .lineComment (fun h => absurd (Text.of_mem_takeWhile h) (by decide))
                fun c hc => bne_eq_false_iff_eq.mp (Text.of_head?_dropWhile (p := (· != '\n')) hc)
            have hline := hpiece htrivium (by
              have := length_dropWhile_le (· != '\n') cs
              simp only [List.length_cons]
              omega)
            rwa [List.cons_append, List.cons_append, List.takeWhile_append_dropWhile] at hline
          · by_cases hclosed : commentEnd <:+: cs
            · obtain ⟨body, left, rfl, hbody⟩ := exists_closed hclosed
              refine hpiece (.blockComment hbody) ?_
              simp only [List.length_cons, List.length_append]
              omega
            · exact hsettled (.openComment hclosed)
        · refine hsettled (.lexeme hblank fun hc d hd => ?_)
          exact not_or.mp fun hopen => hslash ⟨hc, d, hd, hopen⟩

theorem run_of_isWordlike (hc : IsWordlike c) :
    Run (cs.dropWhile isWordChar) (c :: cs.takeWhile isWordChar) where
  ne_nil := List.cons_ne_nil _ _
  wordlike :=
    List.forall_mem_cons.mpr ⟨hc, fun _ hd => isWordChar_iff.mp (Text.of_mem_takeWhile hd)⟩
  longest := fun _ hd => isWordChar_eq_false_iff.mp (Text.of_head?_dropWhile hd)

/-- A run of characters is a word or misspelled. -/
theorem spells_or_misspelled_of_run (h : Run rest word) :
    (∃ kind, Spells rest word kind) ∨ ∃ fault, Misspelled rest word fault := by
  obtain ⟨c, cs, rfl⟩ := List.exists_cons_of_ne_nil h.ne_nil
  by_cases hc : c.isDigit = true
  · by_cases hcs : AllDigits cs
    · have hdigits := allDigits_cons.mpr ⟨hc, hcs⟩
      rcases Nat.lt_or_ge maxInt (Nat.ofDigitChars 10 (c :: cs) 0) with hvalue | hvalue
      · exact .inr ⟨_, .integerOutOfRange h hdigits hvalue⟩
      · exact .inl ⟨_, .int h hdigits hvalue⟩
    · exact .inr ⟨_, .malformedInteger h hc hcs⟩
  · by_cases hident : IsIdentifier (c :: cs)
    · by_cases hreserved : IsReserved (c :: cs)
      · obtain ⟨k, hk⟩ := hreserved
        rw [← hk] at h ⊢
        exact .inl ⟨_, .keyword k h⟩
      · exact .inl ⟨_, .ident h hident hreserved⟩
    · exact .inr ⟨_, .invalidIdentifier h (Bool.eq_false_iff.mpr hc) hident⟩

/-- So is what begins with a quote. -/
theorem spells_or_misspelled_of_quote (cs : List Char) :
    ∃ text rest, '"' :: cs = text ++ rest ∧ text ≠ [] ∧
      ((∃ kind, Spells rest text kind) ∨ ∃ fault, Misspelled rest text fault) := by
  have hbody : ∀ d ∈ cs.takeWhile isStringChar, d ≠ '"' ∧ d ≠ '\n' :=
    fun d hd => isStringChar_iff.mp (Text.of_mem_takeWhile hd)
  have hquote : '"' ∉ cs.takeWhile isStringChar := fun h => (hbody _ h).1 rfl
  have hline : '\n' ∉ cs.takeWhile isStringChar := fun h => (hbody _ h).2 rfl
  by_cases hclosed : '"' ∈ (cs.dropWhile isStringChar).head?
  · obtain ⟨rest, hrest⟩ := List.head?_eq_some_iff.mp hclosed
    refine ⟨'"' :: (cs.takeWhile isStringChar ++ ['"']), rest, ?_, List.cons_ne_nil _ _,
      .inl ⟨_, .string hquote hline⟩⟩
    rw [List.cons_append, List.append_assoc, List.singleton_append, ← hrest,
      List.takeWhile_append_dropWhile]
  · -- Without a quote, the contents can only have ended with the line.
    have hstop : ∀ d ∈ (cs.dropWhile isStringChar).head?, d = '\n' := by
      intro d hd
      refine (eq_of_isStringChar_eq_false (Text.of_head?_dropWhile hd)).resolve_left ?_
      rintro rfl
      exact hclosed hd
    refine ⟨'"' :: cs.takeWhile isStringChar, cs.dropWhile isStringChar, ?_, List.cons_ne_nil _ _,
      .inr ⟨_, .unterminatedString hquote hline hstop⟩⟩
    rw [List.cons_append, List.takeWhile_append_dropWhile]

/-- What stands behind a gap is a lexeme or misspelled, unless it is the end of the source. -/
theorem spells_or_misspelled (h : Settled cs) (hcs : cs ≠ []) :
    ∃ text rest, cs = text ++ rest ∧ text ≠ [] ∧
      ((∃ kind, Spells rest text kind) ∨ ∃ fault, Misspelled rest text fault) := by
  cases h with
  | eos => exact absurd rfl hcs
  | @openComment body hbody =>
    exact ⟨'/' :: '*' :: body, [], (List.append_nil _).symm, List.cons_ne_nil _ _,
      .inr ⟨_, .unterminatedComment rfl hbody⟩⟩
  | @lexeme c cs hblank hslash =>
    by_cases hsymbol : ∃ s : Symbol, c = s.char
    · obtain ⟨s, rfl⟩ := hsymbol
      exact ⟨[s.char], cs, rfl, List.cons_ne_nil _ _,
        .inl ⟨_, .symbol s fun hs => hslash (by rw [hs]; rfl)⟩⟩
    by_cases hquote : c = '"'
    · exact hquote ▸ spells_or_misspelled_of_quote cs
    · have hc : IsWordlike c := ⟨hblank, hquote, fun s hs => hsymbol ⟨s, hs⟩⟩
      exact ⟨_, _, by rw [List.cons_append, List.takeWhile_append_dropWhile], List.cons_ne_nil _ _,
        spells_or_misspelled_of_run (run_of_isWordlike hc)⟩

/-- **Every source has a layout.** -/
theorem exists_layout (p : Position) (cs : List Char) : ∃ items, Layout p cs items := by
  induction hn : cs.length using Nat.strongRecOn generalizing cs p with
  | ind n ih =>
    subst hn
    obtain ⟨gap, behind, rfl, hgap, hsettled⟩ := exists_gap cs
    by_cases hbehind : behind = []
    · subst hbehind
      rw [List.append_nil]
      exact ⟨_, .eos hgap⟩
    · obtain ⟨text, rest, rfl, htext, ⟨kind, hspells⟩ | ⟨fault, hwrong⟩⟩ :=
        spells_or_misspelled hsettled hbehind
      · have hless : rest.length < (gap ++ (text ++ rest)).length := by
          have := List.length_pos_iff.mpr htext
          simp only [List.length_append]
          omega
        obtain ⟨items, hitems⟩ := ih _ hless ((p.after gap).after text) rest rfl
        exact ⟨_, .token hgap hspells hitems⟩
      · exact ⟨_, .error hgap hwrong⟩

end JackToolchain.Jack
