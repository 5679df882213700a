import JackToolchain.Proofs.Hack.ErrorPlaces
import JackToolchain.Proofs.Hack.Scanner

/-!
# Reading token by token

The assembler divides all tokens of a source into lines before it reads the first of them.  A reader
draws the tokens one by one, and only as far as it has to.  Both come to the same: each function of
a reader does to the tokens in front of a scanner what its counterpart does to the tokens of the
line, and leaves the scanner behind the line (`readStatement_eq`).  So they read the same program,
or stop at the same fault (`lines_eq`).

That there is a result at all depends on the slices and checks.  The texts of tokens are slices of
the source, an error points at a token whose line can be cited, and no offset is cut of a source
that is short enough.  So each such source is assembled token by token as it is line by line
(`assemble?_eq`), and its errors say where the reported token is (`place_of_assemble_error`).
-/

namespace JackToolchain.Hack

variable {text : List Char} {c d : Cursor} {t stop : Token} {ts : List Token} {l : TokenLine}
  {ls : List TokenLine} {p : Program} {source : String} {size : Nat}

/-! ### Tokens in front of a cursor -/

/-- Some tokens are read, one after the other, from one cursor to another. -/
inductive Cursor.Draws : Cursor → List Token → Cursor → Prop where
  | nil {c : Cursor} : Draws c [] c
  | cons {c d e : Cursor} {t : Token} {ts : List Token} : c.next = (t, d) → Draws d ts e →
      Draws c (t :: ts) e

theorem Cursor.Fits.of_draws (h : c.Fits size) (hdraws : c.Draws ts d) : d.Fits size := by
  induction hdraws with
  | nil => exact h
  | cons hnext _ ih => exact ih (h.of_next hnext)

/-- Where nothing is left the lexer finds the end of file, again and again. -/
theorem Cursor.next_of_rest_eq_nil (h : c.rest = []) :
    ∃ t, c.next = (t, c) ∧ t.kind = .endOfFile := by
  obtain ⟨cs, n⟩ := c
  obtain rfl : cs = [] := h
  exact ⟨tokenAt n .endOfFile [], next_of_end (.blanks nofun), rfl⟩

/-- A token ends where the source does if and only if nothing is left behind it. -/
theorem Cursor.stop_eq_iff (h : c.Fits size) (hnext : c.next = (t, d)) :
    t.span.stop = size ↔ d.rest = [] := by
  have hd := h.of_next hnext
  have hsize := hd.size_eq
  have hoffset : d.offset = t.span.stop := by
    have hoffset := c.offset_next
    rwa [hnext] at hoffset
  rw [← hoffset]
  constructor
  · intro hstop
    by_contra hrest
    have hpos := byteLength_pos hrest
    omega
  · intro hrest
    rw [hrest] at hsize
    exact hsize

/-- The rest of a line is in front of a cursor: its tokens, of which only the last one ends the
line, and another cursor behind them. -/
structure TokenLine.Ahead (c : Cursor) (l : TokenLine) (d : Cursor) : Prop where
  draws : c.Draws l.tokens d
  body : ∀ t ∈ l.body, t.kind.endsLine = false
  stop : l.stop.kind.endsLine = true

/-- The lines that are left, up to the end of the source.  An end of file ends the last one there,
and no other. -/
inductive Cursor.Lines : Cursor → List TokenLine → Prop where
  | last {c d : Cursor} {l : TokenLine} : l.Ahead c d → l.stop.kind = .endOfFile → d.rest = [] →
      Lines c [l]
  | more {c d : Cursor} {l : TokenLine} {ls : List TokenLine} : l.Ahead c d →
      (l.stop.kind = .endOfFile → d.rest ≠ []) → Lines d ls → Lines c (l :: ls)

theorem TokenLine.ahead_of_endsLine (hnext : c.next = (t, d)) (ht : t.kind.endsLine = true) :
    (⟨[], t⟩ : TokenLine).Ahead c d :=
  ⟨.cons hnext .nil, List.forall_mem_nil _, ht⟩

theorem eq_newline_of_endsLine (h : t.kind.endsLine = true) (hkind : t.kind ≠ .endOfFile) :
    t.kind = .newline := by
  generalize t.kind = kind at h hkind
  cases kind with
  | newline => rfl
  | endOfFile => exact absurd rfl hkind
  | _ => cases h

theorem ne_of_endsLine {kind : TokenKind} (h : t.kind.endsLine = true)
    (hkind : kind.endsLine = false) : t.kind ≠ kind := by
  rintro rfl
  exact absurd (h.symm.trans hkind) (by decide)

theorem TokenLine.Ahead.cons {e : Cursor} (hnext : c.next = (t, d)) (ht : t.kind.endsLine = false)
    (h : l.Ahead d e) : (⟨t :: l.body, l.stop⟩ : TokenLine).Ahead c e :=
  ⟨.cons hnext h.draws, List.forall_mem_cons.mpr ⟨ht, h.body⟩, h.stop⟩

theorem TokenLine.Ahead.next_stop (h : (⟨[], stop⟩ : TokenLine).Ahead c d) :
    c.next = (stop, d) := by
  obtain ⟨hdraws, -, -⟩ := h
  cases hdraws with
  | cons hnext hdraws =>
    cases hdraws
    exact hnext

theorem TokenLine.Ahead.uncons (h : (⟨t :: ts, stop⟩ : TokenLine).Ahead c d) :
    ∃ c', c.next = (t, c') ∧ t.kind.endsLine = false ∧ (⟨ts, stop⟩ : TokenLine).Ahead c' d := by
  obtain ⟨hdraws, hbody, hstop⟩ := h
  obtain ⟨ht, hbody⟩ := List.forall_mem_cons.mp hbody
  cases hdraws with
  | cons hnext hdraws => exact ⟨_, hnext, ht, hdraws, hbody, hstop⟩

/-- **The lines of the tokens that are left** are in front of the cursor. -/
theorem Cursor.lines_of_yields (h : c.Yields ts) : c.Lines (tokenLines ts) := by
  induction h with
  | last hnext hkind hrest =>
    have hends := congrArg TokenKind.endsLine hkind
    rw [tokenLines_ending hends]
    exact .last (TokenLine.ahead_of_endsLine hnext hends) hkind hrest
  | @more c d t ts hnext hmore _ ih =>
    by_cases hends : t.kind.endsLine = true
    · rw [tokenLines_ending hends]
      exact .more (TokenLine.ahead_of_endsLine hnext hends) hmore ih
    · rw [Bool.not_eq_true] at hends
      rw [tokenLines_cons hends]
      generalize tokenLines ts = ls at ih
      cases ih with
      | last hahead hkind hrest => exact .last (hahead.cons hnext hends) hkind hrest
      | more hahead hmore hlines => exact .more (hahead.cons hnext hends) hmore hlines

/-- The tokens of a line are slices of the source. -/
def TokenLine.Sliced (text : List Char) (l : TokenLine) : Prop :=
  ∀ t ∈ l.tokens, IsSlice text t.span.index t.span.stop t.text.toList

theorem TokenLine.Sliced.isSlice_head (h : TokenLine.Sliced text ⟨t :: ts, stop⟩) :
    IsSlice text t.span.index t.span.stop t.text.toList :=
  h t List.mem_cons_self

theorem TokenLine.Sliced.isSlice_stop (h : TokenLine.Sliced text ⟨ts, stop⟩) :
    IsSlice text stop.span.index stop.span.stop stop.text.toList :=
  h stop List.mem_concat_self

theorem TokenLine.Sliced.tail (h : TokenLine.Sliced text ⟨t :: ts, stop⟩) :
    TokenLine.Sliced text ⟨ts, stop⟩ :=
  fun x hx => h x (List.mem_cons_of_mem t hx)

/-! ### Results of readers -/

/-- A reader can tell where a stretch begins. -/
def Span.Placed (text : List Char) (s : Span) : Prop :=
  place? text s.extent.index = some (.ofSpan text s)

/-- Of what is read of a line, the fault has a place, if there is one. -/
def Placed {α : Type} (text : List Char) (r : Except Located α) : Prop :=
  ∀ e, r = .error e → e.span.Placed text

theorem Placed.of_bind {α β : Type} {r : Except Located α} {f : α → Except Located β}
    (h : Placed text (r >>= f)) : Placed text r := by
  rintro e rfl
  exact h e rfl

namespace Reader

variable {α β γ : Type} {s s' s'' : Scanner} {fault : AsmFault} {span : Span}

/-- What a reader gives for what is read of a line, with the scanner that it leaves. -/
def outcome (text : List Char) (s : Scanner) (narrow : α → β) :
    Except Located α → Option (Except AsmError (β × Scanner))
  | .ok a => some (.ok (narrow a, s))
  | .error e => some (.error ⟨e.fault, .ofSpan text e.span⟩)

theorem bind_ok {x : Reader α} {a : α} (h : x s = some (.ok (a, s'))) (f : α → Reader β) :
    (x >>= f) s = f a s' := by
  show (x s).bind _ = _
  rw [h]
  rfl

theorem bind_error {x : Reader α} {e : AsmError} (h : x s = some (.error e)) (f : α → Reader β) :
    (x >>= f) s = some (.error e) := by
  show (x s).bind _ = _
  rw [h]
  rfl

theorem bind_none {x : Reader α} (h : x s = none) (f : α → Reader β) : (x >>= f) s = none := by
  show (x s).bind _ = _
  rw [h]
  rfl

/-- **One step after the other**: the second one goes on where the first one has left the
scanner. -/
theorem bind_outcome {r : Except Located α} {g : α → Except Located γ} {x : Reader α}
    {f : α → Reader β} {narrow : γ → β} (hplaced : Placed text (r >>= g))
    (hx : Placed text r → x s = outcome text s' id r)
    (hf : ∀ a, r = .ok a → Placed text (g a) → f a s' = outcome text s'' narrow (g a)) :
    (x >>= f) s = outcome text s'' narrow (r >>= g) := by
  cases r with
  | error e => exact bind_error (hx hplaced.of_bind) f
  | ok a =>
    rw [bind_ok (hx nofun)]
    exact hf a rfl hplaced

section
variable {σ : Type} {l : Loop σ α} {a : σ}

/-- **A loop** is its first step, and what follows it. -/
theorem Loop.run_eq (l : Loop σ α) (a : σ) (s : Scanner) :
    l.run a s = (l.step a >>= Sum.elim (fun a => (l.run a : Reader α)) pure) s := by
  rw [Loop.run]
  split
  · next h => exact (bind_none h _).symm
  · next h => exact (bind_error h _).symm
  · next h => exact (bind_ok h (Sum.elim (fun a => (l.run a : Reader α)) pure)).symm
  · next h => exact (bind_ok h (Sum.elim (fun a => (l.run a : Reader α)) pure)).symm

theorem Loop.run_inl {a' : σ} (h : l.step a s = some (.ok (.inl a', s'))) :
    l.run a s = l.run a' s' :=
  (l.run_eq a s).trans (bind_ok h _)

theorem Loop.run_inr {b : α} (h : l.step a s = some (.ok (.inr b, s'))) :
    l.run a s = some (.ok (b, s')) :=
  (l.run_eq a s).trans (bind_ok h _)

theorem Loop.run_error {e : AsmError} (h : l.step a s = some (.error e)) :
    l.run a s = some (.error e) :=
  (l.run_eq a s).trans (bind_error h _)

theorem Loop.run_none (h : l.step a s = none) : l.run a s = none :=
  (l.run_eq a s).trans (bind_none h _)

end

theorem fail_placed (h : span.Placed text) (s : Scanner) :
    (fail text fault span.extent : Reader α) s =
      some (.error ⟨fault, .ofSpan text span⟩) := by
  unfold fail
  rw [h]
  rfl

theorem fail_eq (h : span.Placed text) (s s' : Scanner) (narrow : γ → α) :
    fail text fault span.extent s =
      outcome text s' narrow (.error ⟨fault, span⟩ : Except Located γ) :=
  fail_placed h s

/-- A token in front of the scanner. -/
theorem token_eq (h : c.Fits size) (hnext : c.next = (t, d)) :
    token (.ofCursor size c) = some (.ok (t.mark, .ofCursor size d)) := by
  unfold token
  rw [(Scanner.next?_of_next h hnext).1]
  rfl

theorem fragment_eq (hsize : byteLength text < UInt32.size)
    (h : IsSlice text t.span.index t.span.stop t.text.toList) (s : Scanner) :
    fragment text t.mark s = some (.ok (t.text, s)) := by
  have hspan : t.mark.extent.span = t.span :=
    Span.span_extent (Nat.lt_of_le_of_lt h.stop_le hsize)
  have hindex : t.mark.extent.index.toNat = t.span.index := congrArg Span.index hspan
  have hstop : t.mark.extent.index.toNat + t.mark.extent.size.toNat = t.span.stop :=
    congrArg Span.stop hspan
  unfold fragment
  rw [hstop, hindex, slice?_eq_some_iff.mpr h, Option.map_some, String.ofList_toList]

/-! ### Statements -/

theorem expectEnd_eq (h : (⟨ts, stop⟩ : TokenLine).Ahead c d) (hfits : c.Fits (byteLength text))
    (hplaced : Placed text (TokenLine.expectEnd ts)) :
    expectEnd text (.ofCursor (byteLength text) c) =
      outcome text (.ofCursor (byteLength text) d) id (TokenLine.expectEnd ts) := by
  unfold expectEnd
  cases ts with
  | nil =>
    have hends : stop.kind.endsLine = true := h.stop
    rw [bind_ok (token_eq hfits h.next_stop), stop.kind_mark, if_pos hends]
    rfl
  | cons t ts =>
    obtain ⟨c', hnext, hends, -⟩ := h.uncons
    rw [bind_ok (token_eq hfits hnext), t.kind_mark, if_neg (Bool.eq_false_iff.mp hends)]
    exact fail_eq (hplaced _ rfl) _ _ id

theorem readOperand_eq (hsize : byteLength text < UInt32.size)
    (h : IsSlice text t.span.index t.span.stop t.text.toList)
    (hplaced : Placed text (TokenLine.readOperand t)) (s : Scanner) :
    readOperand text t.mark s = outcome text s id (TokenLine.readOperand t) := by
  unfold readOperand
  rw [bind_ok (fragment_eq hsize h s)]
  unfold TokenLine.readOperand at hplaced ⊢
  dsimp only [Token.kind_mark]
  generalize t.kind = kind at hplaced ⊢
  cases kind with
  | symbol => rfl
  | number =>
    dsimp only at hplaced ⊢
    by_cases hvalue : Text.decimalValue t.text.toList ≤ maxConstant
    · rw [if_pos hvalue, if_pos hvalue]
      rfl
    · rw [if_neg hvalue] at hplaced ⊢
      rw [if_neg hvalue]
      exact fail_eq (hplaced _ rfl) _ _ id
  | _ => exact fail_eq (hplaced _ rfl) _ _ id

theorem readOperand_of_endsLine (h : t.kind.endsLine = true) :
    TokenLine.readOperand t = .error ⟨.operandExpected, t.span⟩ := by
  unfold TokenLine.readOperand
  split
  · next hkind => exact absurd hkind (ne_of_endsLine h rfl)
  · next hkind => exact absurd hkind (ne_of_endsLine h rfl)
  · rfl

/-- The statement of a line with the stretch that it is about, as a reader gives them. -/
def narrow (r : LocatedStatement) : Statement × Extent := (r.statement, r.span.extent)

theorem readLoad_eq (h : (⟨ts, stop⟩ : TokenLine).Ahead c d) (hfits : c.Fits (byteLength text))
    (hsliced : TokenLine.Sliced text ⟨ts, stop⟩)
    (hplaced : Placed text (TokenLine.readLoad stop ts)) :
    readLoad text (.ofCursor (byteLength text) c) =
      outcome text (.ofCursor (byteLength text) d) narrow (TokenLine.readLoad stop ts) := by
  unfold readLoad
  cases ts with
  | nil =>
    rw [bind_ok (token_eq hfits h.next_stop)]
    refine bind_outcome hplaced (fun hr => readOperand_eq hfits.bound hsliced.isSlice_stop hr _) ?_
    intro o ho
    rw [TokenLine.firstOf, readOperand_of_endsLine h.stop] at ho
    cases ho
  | cons t ts =>
    obtain ⟨c', hnext, -, hbehind⟩ := h.uncons
    rw [bind_ok (token_eq hfits hnext)]
    refine bind_outcome hplaced (fun hr => readOperand_eq hfits.bound hsliced.isSlice_head hr _) ?_
    intro o _ hplaced
    refine bind_outcome hplaced (fun hr => expectEnd_eq hbehind (hfits.of_next hnext) hr) ?_
    intro _ _ _
    rfl

theorem readLabel_of_not_symbol (stop : Token) (ts : List Token)
    (h : (TokenLine.firstOf stop ts).kind ≠ .symbol) :
    TokenLine.readLabel stop ts = .error ⟨.labelExpected, (TokenLine.firstOf stop ts).span⟩ := by
  unfold TokenLine.readLabel
  dsimp only
  rw [if_pos h]
  rfl

theorem readLabel_of_not_rightParen (stop : Token) (ts : List Token)
    (h : (TokenLine.firstOf stop ts).kind = .symbol)
    (h' : (TokenLine.firstOf stop (ts.drop 1)).kind ≠ .rightParen) :
    TokenLine.readLabel stop ts =
      .error ⟨.rightParenExpected, (TokenLine.firstOf stop (ts.drop 1)).span⟩ := by
  unfold TokenLine.readLabel
  dsimp only
  rw [if_neg (not_not_intro h), if_pos h']
  rfl

theorem readLabel_of_parens {name close : Token} (h : name.kind = .symbol)
    (h' : close.kind = .rightParen) :
    TokenLine.readLabel stop (name :: close :: ts) =
      TokenLine.expectEnd ts >>= fun _ => .ok ⟨.label name.text, name.span⟩ := by
  unfold TokenLine.readLabel
  dsimp only [TokenLine.firstOf, List.drop]
  rw [if_neg (not_not_intro h), if_neg (not_not_intro h')]
  rfl

theorem readLabel_eq (h : (⟨ts, stop⟩ : TokenLine).Ahead c d) (hfits : c.Fits (byteLength text))
    (hsliced : TokenLine.Sliced text ⟨ts, stop⟩)
    (hplaced : Placed text (TokenLine.readLabel stop ts)) :
    readLabel text (.ofCursor (byteLength text) c) =
      outcome text (.ofCursor (byteLength text) d) narrow (TokenLine.readLabel stop ts) := by
  have hends : stop.kind.endsLine = true := h.stop
  unfold readLabel
  cases ts with
  | nil =>
    have hname : stop.kind ≠ .symbol := ne_of_endsLine hends rfl
    rw [readLabel_of_not_symbol stop [] hname] at hplaced ⊢
    rw [bind_ok (token_eq hfits h.next_stop), stop.kind_mark, if_pos hname]
    exact fail_eq (hplaced _ rfl) _ _ narrow
  | cons name ts =>
    obtain ⟨c', hnext, -, hbehind⟩ := h.uncons
    rw [bind_ok (token_eq hfits hnext), name.kind_mark]
    by_cases hname : name.kind = .symbol
    · rw [if_neg (not_not_intro hname)]
      cases ts with
      | nil =>
        have hclose : stop.kind ≠ .rightParen := ne_of_endsLine hends rfl
        rw [readLabel_of_not_rightParen stop [name] hname hclose] at hplaced ⊢
        rw [bind_ok (token_eq (hfits.of_next hnext) hbehind.next_stop), stop.kind_mark,
          if_pos hclose]
        exact fail_eq (hplaced _ rfl) _ _ narrow
      | cons close ts =>
        obtain ⟨c'', hnext', -, hbehind⟩ := hbehind.uncons
        rw [bind_ok (token_eq (hfits.of_next hnext) hnext'), close.kind_mark]
        by_cases hclose : close.kind = .rightParen
        · rw [if_neg (not_not_intro hclose)]
          rw [readLabel_of_parens hname hclose] at hplaced ⊢
          have hfits' := (hfits.of_next hnext).of_next hnext'
          refine bind_outcome hplaced (fun hr => expectEnd_eq hbehind hfits' hr) ?_
          intro _ _ _
          rw [bind_ok (fragment_eq hfits.bound hsliced.isSlice_head _)]
          rfl
        · rw [readLabel_of_not_rightParen stop (name :: close :: ts) hname hclose] at hplaced ⊢
          rw [if_pos hclose]
          exact fail_eq (hplaced _ rfl) _ _ narrow
    · rw [readLabel_of_not_symbol stop (name :: ts) hname] at hplaced ⊢
      rw [if_pos hname]
      exact fail_eq (hplaced _ rfl) _ _ narrow

/-- What the first pass makes of the parts of an instruction: what they spell, and the last of them,
unless one of them is no part. -/
def partsOf (done : List Char) (t : Token) (ts : List Token) : Except Located (List Char × Mark) :=
  match (t :: ts).find? fun x => !x.kind.isInstructionPart with
  | some x => .error ⟨.unexpectedToken x.kind, x.span⟩
  | none => .ok (done ++ (t :: ts).flatMap fun x => x.text.toList, ((t :: ts).getLastD t).mark)

theorem partsOf_of_not_part (h : t.kind.isInstructionPart = false) (done : List Char)
    (ts : List Token) : partsOf done t ts = .error ⟨.unexpectedToken t.kind, t.span⟩ := by
  unfold partsOf
  rw [List.find?_cons_of_pos (by rw [h]; rfl)]

theorem partsOf_cons (h : t.kind.isInstructionPart = true) (done : List Char) (x : Token)
    (ts : List Token) : partsOf done t (x :: ts) = partsOf (done ++ t.text.toList) x ts := by
  unfold partsOf
  rw [List.find?_cons_of_neg (by rw [h]; decide)]
  split
  · rfl
  · rw [List.flatMap_cons, List.append_assoc]
    rfl

theorem partsOf_singleton (h : t.kind.isInstructionPart = true) (done : List Char) :
    partsOf done t [] = .ok (done ++ t.text.toList, t.mark) := by
  unfold partsOf
  rw [List.find?_cons_of_neg (by rw [h]; decide)]
  rw [List.find?_nil, List.flatMap_singleton]
  rfl

/-- A token that is no part of an instruction. -/
theorem readPart_of_not_part {done : List Char} (h : t.kind.isInstructionPart = false)
    (hplaced : t.span.Placed text) (s : Scanner) :
    readPart text (done, t.mark) s =
      some (.error ⟨.unexpectedToken t.kind, .ofSpan text t.span⟩) := by
  unfold readPart
  dsimp only
  rw [t.kind_mark, h, if_neg Bool.false_ne_true]
  exact fail_placed hplaced s

theorem parts_eq {done : List Char} (h : (⟨ts, stop⟩ : TokenLine).Ahead c d)
    (hfits : c.Fits (byteLength text)) (hsliced : TokenLine.Sliced text ⟨t :: ts, stop⟩)
    (hplaced : Placed text (partsOf done t ts)) :
    (parts text).run (done, t.mark) (.ofCursor (byteLength text) c) =
      outcome text (.ofCursor (byteLength text) d) id (partsOf done t ts) := by
  have hfragment := fragment_eq hfits.bound hsliced.isSlice_head (.ofCursor (byteLength text) c)
  induction ts generalizing c t done with
  | nil =>
    by_cases hpart : t.kind.isInstructionPart = true
    · have hends : stop.kind.endsLine = true := h.stop
      rw [partsOf_singleton hpart]
      refine Loop.run_inr ?_
      show readPart text (done, t.mark) _ = _
      unfold readPart
      dsimp only
      rw [t.kind_mark, if_pos hpart, bind_ok hfragment, bind_ok (token_eq hfits h.next_stop),
        stop.kind_mark, if_pos hends]
      rfl
    · rw [Bool.not_eq_true] at hpart
      rw [partsOf_of_not_part hpart] at hplaced ⊢
      exact Loop.run_error (readPart_of_not_part hpart (hplaced ⟨_, t.span⟩ rfl) _)
  | cons x ts ih =>
    by_cases hpart : t.kind.isInstructionPart = true
    · obtain ⟨c', hnext, hends, hbehind⟩ := h.uncons
      have hfits' := hfits.of_next hnext
      have hstep : readPart text (done, t.mark) (.ofCursor (byteLength text) c) =
          some (.ok (.inl (done ++ t.text.toList, x.mark), .ofCursor (byteLength text) c')) := by
        unfold readPart
        dsimp only
        rw [t.kind_mark, if_pos hpart, bind_ok hfragment, bind_ok (token_eq hfits hnext),
          x.kind_mark, if_neg (Bool.eq_false_iff.mp hends)]
        rfl
      rw [partsOf_cons hpart] at hplaced ⊢
      rw [Loop.run_inl hstep]
      have hsliced' := hsliced.tail
      exact ih hbehind hfits' hsliced' hplaced
        (fragment_eq hfits'.bound hsliced'.isSlice_head _)
    · rw [Bool.not_eq_true] at hpart
      rw [partsOf_of_not_part hpart] at hplaced ⊢
      exact Loop.run_error (readPart_of_not_part hpart (hplaced ⟨_, t.span⟩ rfl) _)

/-- The first pass looks at the parts before it looks at what they spell. -/
theorem readCompute_eq_bind (t : Token) (ts : List Token) :
    TokenLine.readCompute t ts = partsOf [] t ts >>= fun parts =>
      let whole := t.span.merge ((t :: ts).getLastD t).span
      match Instruction.ofText parts.1 with
      | .ok i => .ok ⟨.compute i, whole⟩
      | .error fault => .error ⟨fault, whole⟩ := by
  unfold TokenLine.readCompute partsOf
  generalize (t :: ts).find? (fun x => !x.kind.isInstructionPart) = found
  cases found <;> rfl

theorem last_of_partsOf {done spelling : List Char} {last : Mark}
    (h : partsOf done t ts = .ok (spelling, last)) : last = ((t :: ts).getLastD t).mark := by
  unfold partsOf at h
  split at h
  · cases h
  · exact (Prod.mk.inj (Except.ok.inj h)).2.symm

theorem readCompute_eq (h : (⟨ts, stop⟩ : TokenLine).Ahead c d)
    (hfits : c.Fits (byteLength text)) (hsliced : TokenLine.Sliced text ⟨t :: ts, stop⟩)
    (hplaced : Placed text (TokenLine.readCompute t ts)) :
    readCompute text t.mark (.ofCursor (byteLength text) c) =
      outcome text (.ofCursor (byteLength text) d) narrow (TokenLine.readCompute t ts) := by
  have hstop {x : Token} (hx : x ∈ t :: ts) : x.span.stop < UInt32.size :=
    Nat.lt_of_le_of_lt (hsliced x (List.mem_append_left _ hx)).stop_le hfits.bound
  have hlast : (t :: ts).getLastD t ∈ t :: ts := by
    rw [List.getLastD_cons]
    exact List.getLastD_mem_cons
  have hwhole := Span.extent_merge (hstop List.mem_cons_self) (hstop hlast)
  rw [readCompute_eq_bind] at hplaced ⊢
  refine bind_outcome hplaced (fun hr => parts_eq h hfits hsliced hr) ?_
  rintro ⟨spelling, last⟩ hparts hplaced
  obtain rfl := last_of_partsOf hparts
  dsimp only at hplaced ⊢
  rw [Token.extent_mark, Token.extent_mark, hwhole]
  cases htext : Instruction.ofText spelling with
  | ok i => rfl
  | error fault =>
    rw [htext] at hplaced
    exact fail_eq (hplaced _ rfl) _ _ narrow

/-- What the first pass reads of a line that is not empty. -/
def statementOf (stop t : Token) (ts : List Token) : Except Located LocatedStatement :=
  match t.kind with
  | .at => TokenLine.readLoad stop ts
  | .leftParen => TokenLine.readLabel stop ts
  | .unknown => .error ⟨.unknownToken t.text, t.span⟩
  | _ => TokenLine.readCompute t ts

theorem read_eq_statementOf (size : Nat) (stop t : Token) (ts : List Token) :
    (⟨t :: ts, stop⟩ : TokenLine).read size = some <$> statementOf stop t ts :=
  read_cons stop

/-- **A statement is read token by token** as it is from its line. -/
theorem readStatement_eq (h : (⟨ts, stop⟩ : TokenLine).Ahead c d)
    (hfits : c.Fits (byteLength text)) (hsliced : TokenLine.Sliced text ⟨t :: ts, stop⟩)
    (hplaced : Placed text (statementOf stop t ts)) :
    readStatement text t.mark (.ofCursor (byteLength text) c) =
      outcome text (.ofCursor (byteLength text) d) narrow (statementOf stop t ts) := by
  unfold readStatement
  unfold statementOf at hplaced ⊢
  rw [t.kind_mark]
  generalize t.kind = kind at hplaced ⊢
  cases kind with
  | «at» => exact readLoad_eq h hfits hsliced.tail hplaced
  | leftParen => exact readLabel_eq h hfits hsliced.tail hplaced
  | unknown =>
    dsimp only
    rw [bind_ok (fragment_eq hfits.bound hsliced.isSlice_head _)]
    exact fail_eq (hplaced _ rfl) _ _ narrow
  | _ => exact readCompute_eq h hfits hsliced hplaced

/-! ### Programs -/

theorem add_eq {r : LocatedStatement} (hplaced : Placed text (p.add r)) (s : Scanner) :
    add text p r.statement r.span.extent s = outcome text s id (p.add r) := by
  obtain ⟨statement, span⟩ := r
  unfold add
  cases statement with
  | label name =>
    unfold Program.add at hplaced ⊢
    dsimp only at hplaced ⊢
    by_cases hname : p.symbols.contains name = true
    · rw [if_pos hname] at hplaced
      rw [if_pos hname, if_pos hname]
      exact fail_eq (hplaced _ rfl) _ _ id
    · rw [if_neg hname, if_neg hname]
      rfl
  | load o => rfl
  | compute i => rfl

/-- The end of file at the end of the source ends the program. -/
theorem readLine_last (hfits : c.Fits (byteLength text)) (hnext : c.next = (t, d))
    (hkind : t.kind = .endOfFile) (hrest : d.rest = []) (p : Program) :
    readLine text p (.ofCursor (byteLength text) c) =
      some (.ok (.inr p, .ofCursor (byteLength text) d)) := by
  have hend : atEnd (.ofCursor (byteLength text) d) =
      some (.ok (true, .ofCursor (byteLength text) d)) := by
    unfold atEnd
    rw [(Scanner.atEnd_ofCursor (hfits.of_next hnext)).mpr hrest]
  unfold readLine
  rw [bind_ok (token_eq hfits hnext), t.kind_mark, hkind]
  dsimp only
  rw [bind_ok hend]
  rfl

/-- A NUL character where a line should begin. -/
theorem readLine_nul (hfits : c.Fits (byteLength text)) (hnext : c.next = (t, d))
    (hkind : t.kind = .endOfFile) (hrest : d.rest ≠ []) (hplaced : t.span.Placed text)
    (p : Program) :
    readLine text p (.ofCursor (byteLength text) c) =
      some (.error ⟨.nullCharacter, .ofSpan text t.span⟩) := by
  have hmore : atEnd (.ofCursor (byteLength text) d) =
      some (.ok (false, .ofCursor (byteLength text) d)) := by
    unfold atEnd
    rw [Bool.eq_false_iff.mpr fun h => hrest ((Scanner.atEnd_ofCursor (hfits.of_next hnext)).mp h)]
  unfold readLine
  rw [bind_ok (token_eq hfits hnext), t.kind_mark, hkind]
  dsimp only
  rw [bind_ok hmore, if_neg Bool.false_ne_true]
  exact fail_placed hplaced _

/-- An empty line. -/
theorem readLine_newline (hfits : c.Fits (byteLength text)) (hnext : c.next = (t, d))
    (hkind : t.kind = .newline) (p : Program) :
    readLine text p (.ofCursor (byteLength text) c) =
      some (.ok (.inl p, .ofCursor (byteLength text) d)) := by
  unfold readLine
  rw [bind_ok (token_eq hfits hnext), t.kind_mark, hkind]
  rfl

/-- What a token that does not end a line begins is read, and added. -/
theorem readLine_statement (hfits : c.Fits (byteLength text)) (hnext : c.next = (t, d))
    (hkind : t.kind.endsLine = false) (p : Program) :
    readLine text p (.ofCursor (byteLength text) c) =
      (readStatement text t.mark >>= fun (s, x) =>
        add text p s x >>= fun p => pure (.inl p)) (.ofCursor (byteLength text) d) := by
  unfold readLine
  rw [bind_ok (token_eq hfits hnext), t.kind_mark]
  generalize t.kind = kind at hkind
  cases kind with
  | newline => cases hkind
  | endOfFile => cases hkind
  | _ => rfl

/-- The first pass over a line that is not empty. -/
theorem addLines_statement (size : Nat) (p : Program) (stop t : Token) (ts : List Token)
    (ls : List TokenLine) : p.addLines size (⟨t :: ts, stop⟩ :: ls) =
      statementOf stop t ts >>= fun r => p.add r >>= fun p => p.addLines size ls := by
  rw [Program.addLines, read_eq_statementOf]
  cases statementOf stop t ts with
  | error e => rfl
  | ok r =>
    have hread : some <$> (.ok r : Except Located LocatedStatement) = .ok (some r) := rfl
    rw [hread]
    show _ = p.add r >>= _
    dsimp only
    cases p.add r <;> rfl

/-- **One line is read token by token** as it is by the first pass, if the rest of the source is. -/
theorem lines_cons (h : (⟨t :: ts, stop⟩ : TokenLine).Ahead c d)
    (hfits : c.Fits (byteLength text)) (hsliced : TokenLine.Sliced text ⟨t :: ts, stop⟩)
    (hplaced : Placed text (p.addLines (byteLength text) (⟨t :: ts, stop⟩ :: ls)))
    (hrest : ∀ p : Program, d.Fits (byteLength text) →
      Placed text (p.addLines (byteLength text) ls) →
      ∃ s, (lines text).run p (.ofCursor (byteLength text) d) =
        outcome text s id (p.addLines (byteLength text) ls)) :
    ∃ s, (lines text).run p (.ofCursor (byteLength text) c) =
      outcome text s id (p.addLines (byteLength text) (⟨t :: ts, stop⟩ :: ls)) := by
  obtain ⟨c', hnext, hends, hbehind⟩ := h.uncons
  have hstep := readLine_statement hfits hnext hends p
  rw [addLines_statement] at hplaced ⊢
  have hstatement := readStatement_eq hbehind (hfits.of_next hnext) hsliced hplaced.of_bind
  cases hr : statementOf stop t ts with
  | error e =>
    rw [hr] at hstatement
    exact ⟨.ofCursor (byteLength text) d,
      Loop.run_error (hstep.trans (bind_error hstatement _))⟩
  | ok r =>
    rw [hr] at hplaced hstatement
    have hadded : Placed text (p.add r >>= fun p => p.addLines (byteLength text) ls) := hplaced
    have hadd := add_eq hadded.of_bind (.ofCursor (byteLength text) d)
    replace hstep := hstep.trans (bind_ok hstatement _)
    show ∃ s, _ = outcome text s id (p.add r >>= fun p => p.addLines (byteLength text) ls)
    cases hp : p.add r with
    | error e =>
      rw [hp] at hadd
      exact ⟨.ofCursor (byteLength text) d, Loop.run_error (hstep.trans (bind_error hadd _))⟩
    | ok p' =>
      rw [hp] at hadd hadded
      obtain ⟨s, hs⟩ := hrest p' (hfits.of_draws h.draws) hadded
      refine ⟨s, (Loop.run_inl (hstep.trans (bind_ok hadd _))).trans hs⟩

/-- The first pass over a line without a statement. -/
theorem addLines_empty (h : ¬(stop.kind = .endOfFile ∧ stop.span.stop ≠ size)) (p : Program)
    (ls : List TokenLine) : p.addLines size (⟨[], stop⟩ :: ls) = p.addLines size ls := by
  rw [Program.addLines, TokenLine.read, if_neg h]

theorem addLines_nul (h : stop.kind = .endOfFile ∧ stop.span.stop ≠ size) (p : Program)
    (ls : List TokenLine) :
    p.addLines size (⟨[], stop⟩ :: ls) = .error ⟨.nullCharacter, stop.span⟩ := by
  rw [Program.addLines, TokenLine.read, if_pos h]

/-- **The lines that are left are read token by token** as they are by the first pass. -/
theorem lines_eq (h : c.Lines ls) (hfits : c.Fits (byteLength text))
    (hsliced : ∀ l ∈ ls, l.Sliced text)
    (hplaced : Placed text (p.addLines (byteLength text) ls)) :
    ∃ s, (lines text).run p (.ofCursor (byteLength text) c) =
      outcome text s id (p.addLines (byteLength text) ls) := by
  induction h generalizing p with
  | @last c d l hahead hkind hrest =>
    obtain ⟨body, stop⟩ := l
    cases body with
    | nil =>
      have hnext := hahead.next_stop
      have hstop := Cursor.stop_eq_iff hfits hnext
      rw [addLines_empty fun h => h.2 (hstop.mpr hrest)]
      exact ⟨_, Loop.run_inr (readLine_last hfits hnext hkind hrest p)⟩
    | cons t ts =>
      refine lines_cons hahead hfits (hsliced _ List.mem_cons_self) hplaced ?_
      intro p hfits' _
      obtain ⟨t, hnext, hkind⟩ := Cursor.next_of_rest_eq_nil hrest
      exact ⟨_, Loop.run_inr (readLine_last hfits' hnext hkind hrest p)⟩
  | @more c d l ls hahead hmore _ ih =>
    have hsliced' : ∀ l ∈ ls, l.Sliced text := fun l hl => hsliced l (List.mem_cons_of_mem _ hl)
    obtain ⟨body, stop⟩ := l
    cases body with
    | nil =>
      have hnext := hahead.next_stop
      have hstop := Cursor.stop_eq_iff hfits hnext
      by_cases hkind : stop.kind = .endOfFile
      · rw [addLines_nul ⟨hkind, mt hstop.mp (hmore hkind)⟩] at hplaced ⊢
        have hstop' : stop.span.Placed text := hplaced ⟨.nullCharacter, stop.span⟩ rfl
        exact ⟨.ofCursor (byteLength text) d,
          Loop.run_error (readLine_nul hfits hnext hkind (hmore hkind) hstop' p)⟩
      · have hnewline : stop.kind = .newline := eq_newline_of_endsLine hahead.stop hkind
        rw [addLines_empty fun h => hkind h.1] at hplaced ⊢
        rw [Loop.run_inl (readLine_newline hfits hnext hnewline p)]
        exact ih (hfits.of_next hnext) hsliced' hplaced
    | cons t ts =>
      refine lines_cons hahead hfits (hsliced _ List.mem_cons_self) hplaced ?_
      exact fun p hfits' hplaced' => ih hfits' hsliced' hplaced'

end Reader

/-- **A source below the bound is assembled token by token** as it is line by line: no check fails,
no slice is out of place, and the words or the error are the same. -/
theorem assemble?_eq (hsize : source.utf8ByteSize < UInt32.size) :
    assemble? source = some (assemble source) := by
  have hfits : (Cursor.ofSource source).Fits (byteLength source.toList) := by
    refine ⟨Nat.zero_add _, ?_⟩
    rwa [byteLength_toList]
  have hlines := Cursor.lines_of_yields (Cursor.yields_tokens source)
  have hsliced : ∀ l ∈ tokenLines (tokens source), l.Sliced source.toList := by
    intro l hl t ht
    obtain ⟨before, rest, hstands⟩ :=
      exists_standsIn source t ((infix_of_mem_tokenLines hl).subset ht)
    exact hstands.isSlice
  have hplaced : Placed source.toList (Program.ofSource source) := by
    intro e he
    obtain ⟨l, hl, t, -, hindex, before, inLine, rest, hline, hne⟩ := exists_blamed he
    rw [← hindex] at hline
    exact place?_eq hfits.bound hline hne
  have hprogram : Program.ofSource source =
      Program.addLines (byteLength source.toList) {} (tokenLines (tokens source)) := by
    rw [byteLength_toList]
    rfl
  rw [hprogram] at hplaced
  obtain ⟨s, hs⟩ := Reader.lines_eq hlines hfits hsliced hplaced
  rw [← hprogram] at hs
  have hscanner : Scanner.ofCursor (byteLength source.toList) (Cursor.ofSource source) =
      .ofSource source := by
    unfold Scanner.ofCursor Scanner.ofSource
    rw [byteLength_toList]
    rfl
  rw [hscanner] at hs
  unfold assemble? assemble assembleWithRecords
  rw [hs]
  cases Program.ofSource source <;> rfl

/-! ### Wider sources -/

/-- Blanks in front of a line feed, wherever they begin. -/
theorem Scanner.advanceWhile_replicate (m n : Nat) (size : UInt32) :
    (⟨indexed m (List.replicate n ' ' ++ ['\n']), size⟩ : Scanner).advanceWhile
      (fun s => isBlank s.current) = some ⟨[(m + n, '\n')], size⟩ := by
  induction n generalizing m with
  | zero =>
    rw [advanceWhile, if_neg]
    · rfl
    · exact Bool.eq_false_iff.mp rfl
  | succ n ih =>
    have hblank : isBlank ' ' = true := rfl
    have hsum : m + (n + 1) = m + 1 + n := by omega
    rw [advanceWhile, List.replicate_succ, List.cons_append, indexed, hsum]
    exact (if_pos hblank).trans ((if_neg Bool.false_ne_true).trans (ih (m + 1)))

/-- **The bound is sharp.**  The size of a source of `UInt32.size` bytes is cut to zero.  If its
last character is a line feed, this token seems to end in front of its beginning. -/
theorem assemble?_replicate {n : Nat} (h : n + 1 = UInt32.size) :
    (String.ofList (List.replicate n ' ' ++ ['\n'])).utf8ByteSize = UInt32.size ∧
      assemble? (String.ofList (List.replicate n ' ' ++ ['\n'])) = none := by
  have hlength (n : Nat) : byteLength (List.replicate n ' ') = n := by
    induction n with
    | zero => rfl
    | succ n ih =>
      rw [List.replicate_succ, byteLength_cons, ih, Nat.add_comm]
      rfl
  have hsize : (String.ofList (List.replicate n ' ' ++ ['\n'])).utf8ByteSize = UInt32.size := by
    rw [← byteLength_toList, String.toList_ofList, byteLength_append, hlength, ← h]
    rfl
  have hcut : UInt32.ofNat UInt32.size = 0 := by decide
  have hindex : ¬UInt32.ofNat n ≤ 0 := by
    rw [UInt32.le_iff_toNat_le, UInt32.toNat_ofNat_of_lt' (by omega)]
    show ¬n ≤ 0
    have hwide : 1 < UInt32.size := by decide
    omega
  have hnext : (Scanner.ofSource (String.ofList (List.replicate n ' ' ++ ['\n']))).next? =
      none := by
    unfold Scanner.ofSource Scanner.next?
    rw [hsize, hcut, String.toList_ofList, Scanner.advanceWhile_replicate, Nat.zero_add]
    exact if_neg hindex
  refine ⟨hsize, ?_⟩
  unfold assemble?
  rw [Reader.Loop.run_none]
  refine Reader.bind_none ?_ _
  unfold Reader.token
  rw [hnext]
  rfl

/-- **An error says where the reported token is.**  Of each source that is not assembled, some line
has a token that the error is about.  The token has a line in the source, behind the last line feed
in front of it and the carriage return that may follow that line feed; the place of the error counts
the line feeds in front of the token and the characters between the beginning of the line and the
token, and cites the line.  It is computed from slices of the source, as are the texts of all
tokens.  If the size of the source fits into 32 bits, reading it token by token comes to the same
error. -/
theorem place_of_assemble_error (hsize : source.utf8ByteSize < UInt32.size) {e : AsmError}
    (h : assemble source = .error e) :
    assemble? source = some (.error e) ∧
    ∃ l ∈ tokenLines (tokens source), ∃ t, l.Blames source.utf8ByteSize e.fault t ∧
      (∃ before inLine rest, InLineOf source.toList t.span.index before inLine rest ∧
        e.place.Describes before inLine rest ∧ e.place = .ofSpan source.toList t.span ∧
        (t.span.surroundingLine source.toList).Sliced source.toList t.span.index before inLine) ∧
      ∀ x ∈ tokens source, IsSlice source.toList x.span.index x.span.stop x.text.toList := by
  refine ⟨h ▸ assemble?_eq hsize, ?_⟩
  obtain ⟨located, hsource, rfl⟩ := located_of_assemble_error h
  obtain ⟨l, hl, t, hblames, hindex, before, inLine, rest, hline, hne⟩ := exists_blamed hsource
  have hplace : Place.ofSpan source.toList located.span = .ofSpan source.toList t.span :=
    Place.ofSpan_congr hindex source.toList
  obtain ⟨hdescribes, hsliced⟩ := Place.describes_ofSpan hline hne
  refine ⟨l, hl, t, hblames, ⟨before, inLine, rest, hline, hplace ▸ hdescribes, hplace, hsliced⟩,
    ?_⟩
  intro x hx
  obtain ⟨before, rest, hx'⟩ := exists_standsIn source x hx
  exact hx'.isSlice

/-- A source with line breaks of all kinds and characters of several bytes, in which a constant is
out of range. -/
def unevenSource : String := "// ä\r\n0;JMP\n\r  @40000 // €\r\n0;JMP"

theorem place_of_assemble_error_uneven :
    unevenSource.utf8ByteSize < UInt32.size ∧
      assemble? unevenSource =
        some (.error ⟨.constantOutOfRange "40000", ⟨3, 4, "  @40000 // €"⟩⟩) ∧
      ∃ l ∈ tokenLines (tokens unevenSource), ∃ t,
        l.Blames unevenSource.utf8ByteSize (.constantOutOfRange "40000") t ∧
          ∃ before inLine rest, InLineOf unevenSource.toList t.span.index before inLine rest ∧
            (before ++ inLine).count '\n' = 2 ∧ inLine.length = 3 := by
  have hsize : unevenSource.utf8ByteSize < UInt32.size := by decide
  have herror : assemble unevenSource =
      .error ⟨.constantOutOfRange "40000", ⟨3, 4, "  @40000 // €"⟩⟩ := by decide +kernel
  obtain ⟨hnarrow, l, hl, t, hblames, ⟨before, inLine, rest, hline, hdescribes, -, -⟩, -⟩ :=
    place_of_assemble_error hsize herror
  have hfeeds : 3 = (before ++ inLine).count '\n' + 1 := hdescribes.line
  have hcolumn : 4 = inLine.length + 1 := hdescribes.column
  exact ⟨hsize, hnarrow, l, hl, t, hblames, before, inLine, rest, hline, by omega, by omega⟩

end JackToolchain.Hack
