import JackToolchain.Proofs.Hack.Reference

/-!
# Lines of a source and lines of tokens

The lexer makes tokens of a whole source, and the lines of tokens come from them; the reference
divides the source into lines first.  Both agree on a source without NUL characters.  A NUL
character is read as an end of file, which ends a line of tokens, unless it stands in a comment.  So
each line of tokens belongs to a *stretch*, a part between NUL characters of a line without its
comment: its tokens are those of the stretch (`Scans`), and the end of file at its end, if there is
one, is the end of the source if no NUL character ends the stretch (`scanned_tokenLines`).
-/

namespace JackToolchain.Hack

variable {c d : Char} {cs code gap text rest rest' line : List Char} {kind : TokenKind} {t : Token}
  {ts : List Token}

/-! ### Lines of characters -/

theorem physicalLines_cons (h : isNewline c = false) :
    physicalLines (c :: cs) = (physicalLines cs).modifyHead (c :: ·) := by
  have hreturn : c ≠ '\r' := by
    rintro rfl
    cases h
  rw [physicalLines, if_neg (Bool.eq_false_iff.mp h)]
  exact fun _ hc => absurd hc hreturn

theorem physicalLines_newline (h : isNewline c = true)
    (hreturn : c = '\r' → ∀ d ∈ cs.head?, d ≠ '\n') :
    physicalLines (c :: cs) = [] :: physicalLines cs := by
  rw [physicalLines, if_pos h]
  rintro rest hc rfl
  exact hreturn hc '\n' rfl rfl

/-- Characters that end no line stand in the first line. -/
theorem physicalLines_append (h : ∀ c ∈ text, isNewline c = false) :
    physicalLines (text ++ rest) = (physicalLines rest).modifyHead (text ++ ·) := by
  induction text with
  | nil => exact (congrFun List.modifyHead_id (physicalLines rest)).symm
  | cons c cs ih =>
    obtain ⟨hc, hcs⟩ := List.forall_mem_cons.mp h
    rw [List.cons_append, physicalLines_cons hc, ih hcs, List.modifyHead_modifyHead]
    rfl

/-- There is a first line; it begins as the text does, unless it is empty. -/
theorem exists_physicalLines (cs : List Char) :
    ∃ line lines, physicalLines cs = line :: lines ∧ ∀ d ∈ line.head?, d ∈ cs.head? := by
  fun_induction physicalLines cs with
  | case1 => exact ⟨[], [], rfl, nofun⟩
  | case2 cs => exact ⟨[], physicalLines cs, rfl, nofun⟩
  | case3 c cs _ _ => exact ⟨[], physicalLines cs, rfl, nofun⟩
  | case4 c cs _ _ ih =>
    obtain ⟨line, lines, hlines, -⟩ := ih
    rw [hlines]
    exact ⟨c :: line, lines, rfl, fun _ hd => hd⟩

/-- The characters of a line are characters of the text. -/
theorem mem_of_mem_physicalLines (hline : line ∈ physicalLines cs) (hc : c ∈ line) : c ∈ cs := by
  fun_induction physicalLines cs generalizing line with
  | case1 =>
    rw [List.mem_singleton.mp hline] at hc
    cases hc
  | case2 cs ih =>
    rcases List.mem_cons.mp hline with rfl | hline
    · cases hc
    · exact List.mem_cons_of_mem _ (List.mem_cons_of_mem _ (ih hline hc))
  | case3 d cs _ _ ih =>
    rcases List.mem_cons.mp hline with rfl | hline
    · cases hc
    · exact List.mem_cons_of_mem _ (ih hline hc)
  | case4 d cs _ _ ih =>
    obtain ⟨first, lines, hlines, -⟩ := exists_physicalLines cs
    rw [hlines] at hline ih
    rcases List.mem_cons.mp hline with rfl | hline
    · rcases List.mem_cons.mp hc with rfl | hc
      · exact List.mem_cons_self
      · exact List.mem_cons_of_mem _ (ih List.mem_cons_self hc)
    · exact List.mem_cons_of_mem _ (ih (List.mem_cons_of_mem _ hline) hc)

/-- A line that can be printed has no line break in it. -/
theorem Line.not_newline_of_printable {l : Line} (h : l.Printable) :
    ∀ c ∈ l.text.toList, isNewline c = false := by
  have hsymbol {name : String} (hname : IsSymbol name) : ∀ c ∈ name.toList,
      isNewline c = false := by
    obtain ⟨x, xs, hlist, hx, hxs⟩ := hname
    rw [hlist]
    exact List.forall_mem_cons.mpr ⟨not_newline_of_isSymbolPart (isSymbolPart_of_isSymbolStart hx),
      fun c hc => not_newline_of_isSymbolPart (hxs c hc)⟩
  match l with
  | .comment text =>
    show ∀ c ∈ ("// " ++ text).toList, isNewline c = false
    rw [String.toList_append]
    exact List.forall_mem_append.mpr ⟨by decide, h⟩
  | .statement (.label name) =>
    show ∀ c ∈ ("(" ++ name ++ ")").toList, isNewline c = false
    rw [String.toList_append, String.toList_append]
    exact List.forall_mem_append.mpr ⟨List.forall_mem_append.mpr ⟨by decide, hsymbol h⟩, by decide⟩
  | .statement (.load (.symbol name)) =>
    show ∀ c ∈ ("@" ++ name).toList, isNewline c = false
    rw [String.toList_append]
    exact List.forall_mem_append.mpr ⟨by decide, hsymbol h⟩
  | .statement (.load (.constant n)) =>
    show ∀ c ∈ ("@" ++ toString n).toList, isNewline c = false
    rw [String.toList_append]
    exact List.forall_mem_append.mpr ⟨by decide, fun c hc =>
      not_newline_of_isSymbolPart (isSymbolPart_of_isDigit (Text.isDigit_of_mem_toString hc))⟩
  | .statement (.compute i) =>
    intro c hc
    have hchar := i.isInstructionChar_of_mem_text c hc
    refine Bool.eq_false_iff.mpr fun hnewline => ?_
    rw [isNewline, Bool.or_eq_true, beq_iff_eq, beq_iff_eq] at hnewline
    rcases hnewline with rfl | rfl <;> exact absurd hchar (by decide)

/-- **Printed lines are the lines of their text**, and nothing is behind them. -/
theorem physicalLines_linesText {lines : List Line} (h : ∀ l ∈ lines, l.Printable) :
    physicalLines (linesText lines).toList = (lines.map fun l => l.text.toList) ++ [[]] := by
  rw [toList_linesText]
  induction lines with
  | nil => rfl
  | cons l lines ih =>
    obtain ⟨hl, hlines⟩ := List.forall_mem_cons.mp h
    rw [List.flatMap_cons, List.append_assoc,
      physicalLines_append (Line.not_newline_of_printable hl), List.singleton_append,
      physicalLines_newline rfl fun hc => absurd hc (by decide), ih hlines, List.modifyHead_cons,
      List.append_nil]
    rfl

theorem mem_of_mem_uncommented (hc : c ∈ uncommented line) : c ∈ line := by
  fun_induction uncommented line with
  | case1 => exact hc
  | case2 => cases hc
  | case3 d line _ ih =>
    rcases List.mem_cons.mp hc with rfl | hc
    · exact List.mem_cons_self
    · exact List.mem_cons_of_mem _ (ih hc)

theorem uncommented_cons (h : c = '/' → ∀ d ∈ line.head?, d ≠ '/') :
    uncommented (c :: line) = c :: uncommented line := by
  rw [uncommented]
  rintro rest hc rfl
  exact h hc '/' rfl rfl

theorem uncommented_append (h : '/' ∉ text) :
    uncommented (text ++ line) = text ++ uncommented line := by
  induction text with
  | nil => rfl
  | cons c cs ih =>
    obtain ⟨hc, hcs⟩ := not_or.mp (mt List.mem_cons.mpr h)
    rw [List.cons_append, uncommented_cons fun h => absurd h.symm hc, ih hcs]
    rfl

theorem mem_head?_of_uncommented (h : d ∈ (uncommented line).head?) : d ∈ line.head? := by
  unfold uncommented at h
  split at h
  · cases h
  · cases h
  · exact h

/-! ### Characters of gaps and tokens -/

theorem eq_of_isNewline (h : isNewline c = true) : c = '\r' ∨ c = '\n' := by
  simpa [isNewline] using h

theorem not_newline_of_isBlank (h : isBlank c = true) : isNewline c = false := by
  rw [Bool.eq_false_iff]
  intro hnewline
  rcases eq_of_isNewline hnewline with rfl | rfl <;> exact absurd h (by decide)

theorem slash_notMem_of_blanks (h : Blanks gap) : '/' ∉ gap :=
  fun hslash => absurd (h '/' hslash) (by decide)

theorem Gap.not_newline (h : Gap rest gap) : ∀ c ∈ gap, isNewline c = false := by
  cases h with
  | blanks h => exact fun c hc => not_newline_of_isBlank (h c hc)
  | comment h hbody _ =>
    rw [List.forall_mem_append]
    refine ⟨fun c hc => not_newline_of_isBlank (h c hc), ?_⟩
    simp only [List.mem_cons, forall_eq_or_imp]
    exact ⟨by decide, by decide, hbody⟩

theorem Gap.blanks_uncommented (h : Gap rest gap) : Blanks (uncommented gap) := by
  cases h with
  | blanks h =>
    rwa [← List.append_nil gap, uncommented_append (slash_notMem_of_blanks h), uncommented,
      List.append_nil]
  | comment h _ _ =>
    rw [uncommented_append (slash_notMem_of_blanks h), uncommented, List.append_nil]
    exact h

/-- In front of a token on the same line there is no comment. -/
theorem Gap.blanks_of_head (h : Gap (c :: rest) gap) (hc : isNewline c = false) : Blanks gap := by
  cases h with
  | blanks h => exact h
  | comment _ _ hend => exact absurd (hend c rfl) (Bool.eq_false_iff.mp hc)

/-- What a text spells depends on the next character only. -/
theorem Spells.of_head (h : Spells rest text kind) (hrest : ∀ d ∈ rest'.head?, d ∈ rest.head?) :
    Spells rest' text kind := by
  cases h with
  | char hc hreturn => exact .char hc fun h d hd => hreturn h d (hrest d hd)
  | crlf => exact .crlf
  | symbol hc hcs hstop => exact .symbol hc hcs fun d hd => hstop d (hrest d hd)
  | number hc hcs hstop => exact .number hc hcs fun d hd => hstop d (hrest d hd)
  | unknown hc hpart hblank hslash =>
    exact .unknown hc hpart hblank fun h d hd => hslash h d (hrest d hd)

theorem ofChar?_newline (h : TokenKind.ofChar? c = some kind) :
    isNewline c = true ↔ kind = .newline := by
  unfold TokenKind.ofChar? at h
  split at h <;> first | (cases h; done) | (cases h; decide)

/-- A token that does not end a line has no character that does. -/
theorem Spells.not_newline (h : Spells rest text kind) (hkind : kind ≠ .newline) :
    ∀ c ∈ text, isNewline c = false := by
  have hword {c : Char} {cs : List Char} (hc : isSymbolPart c = true) (hcs : ∀ d ∈ cs,
      isSymbolPart d = true) : ∀ d ∈ c :: cs, isNewline d = false :=
    List.forall_mem_cons.mpr ⟨not_newline_of_isSymbolPart hc,
      fun d hd => not_newline_of_isSymbolPart (hcs d hd)⟩
  cases h with
  | char hc _ =>
    rw [List.forall_mem_singleton, Bool.eq_false_iff]
    exact fun h => hkind ((ofChar?_newline hc).mp h)
  | crlf => exact absurd rfl hkind
  | symbol hc hcs _ => exact hword (isSymbolPart_of_isSymbolStart hc) hcs
  | number hc hcs _ =>
    exact hword (isSymbolPart_of_isDigit hc) fun d hd => isSymbolPart_of_isDigit (hcs d hd)
  | unknown hc _ _ _ =>
    rw [List.forall_mem_singleton, Bool.eq_false_iff]
    intro hnewline
    rcases eq_of_isNewline hnewline with rfl | rfl <;> cases hc

/-- A comment does not begin inside a token. -/
theorem Spells.uncommented_append (h : Spells rest text kind)
    (hline : ∀ d ∈ line.head?, d ∈ rest.head?) :
    uncommented (text ++ line) = text ++ uncommented line := by
  have hpart {c : Char} (h : isSymbolPart c = true) : c ≠ '/' := (of_isSymbolPart h).2.2.1
  cases h with
  | char hc _ => exact uncommented_cons fun h => absurd h (of_ofChar? hc).2.2
  | crlf => exact Hack.uncommented_append (by decide)
  | symbol hc hcs _ =>
    refine Hack.uncommented_append fun h => ?_
    rcases List.mem_cons.mp h with h | h
    · exact hpart (isSymbolPart_of_isSymbolStart hc) h.symm
    · exact hpart (hcs _ h) rfl
  | number hc hcs _ =>
    refine Hack.uncommented_append fun h => ?_
    rcases List.mem_cons.mp h with h | h
    · exact hpart (isSymbolPart_of_isDigit hc) h.symm
    · exact hpart (isSymbolPart_of_isDigit (hcs _ h)) rfl
  | unknown _ _ _ hslash => exact uncommented_cons fun h d hd => hslash h d (hline d hd)

/-- Only a NUL character is read as an end of file. -/
theorem Spells.eq_nul (h : Spells rest text .endOfFile) : text = ['\x00'] := by
  generalize hkind : TokenKind.endOfFile = kind at h
  cases h with
  | char hc _ =>
    subst hkind
    unfold TokenKind.ofChar? at hc
    split at hc <;> first | (cases hc; done) | rfl
  | _ => cases hkind

/-- No other token has a NUL character in it. -/
theorem Spells.nul_notMem (h : Spells rest text kind) (hkind : kind ≠ .endOfFile) :
    '\x00' ∉ text := by
  have hword {c : Char} {cs : List Char} (hc : isSymbolPart c = true) (hcs : ∀ d ∈ cs,
      isSymbolPart d = true) : '\x00' ∉ c :: cs := by
    intro hmem
    have hparts : ∀ d ∈ c :: cs, isSymbolPart d = true := List.forall_mem_cons.mpr ⟨hc, hcs⟩
    exact absurd (hparts _ hmem) (by decide)
  cases h with
  | @char c _ hc _ =>
    intro hmem
    obtain rfl := List.mem_singleton.mp hmem
    exact hkind (Option.some.inj hc).symm
  | crlf => decide
  | symbol hc hcs _ => exact hword (isSymbolPart_of_isSymbolStart hc) hcs
  | number hc hcs _ =>
    exact hword (isSymbolPart_of_isDigit hc) fun d hd => isSymbolPart_of_isDigit (hcs d hd)
  | @unknown c hc _ _ _ =>
    intro hmem
    obtain rfl := List.mem_singleton.mp hmem
    cases hc

/-- What ends a line is one ending. -/
theorem Spells.physicalLines_append (h : Spells rest text .newline) :
    physicalLines (text ++ rest) = [] :: physicalLines rest := by
  generalize hkind : TokenKind.newline = kind at h
  cases h with
  | char hc hreturn => exact physicalLines_newline ((ofChar?_newline hc).mpr hkind.symm) hreturn
  | crlf => rfl
  | _ => cases hkind

/-! ### Stretches of a line -/

/-- A longest part without NUL characters of a line without its comment, and whether a NUL character
ends it. -/
structure Stretch where
  code : List Char
  nul : Bool
deriving Repr, DecidableEq

/-- Puts a text in front of a stretch. -/
def Stretch.prepend (text : List Char) (st : Stretch) : Stretch := ⟨text ++ st.code, st.nul⟩

/-- The stretches of a line without its comment. -/
def stretchesOf : List Char → List Stretch
  | [] => [⟨[], false⟩]
  | c :: cs => if c = '\x00' then ⟨[], true⟩ :: stretchesOf cs
    else (stretchesOf cs).modifyHead (.prepend [c])

/-- The stretches of the lines of a text. -/
def stretches (cs : List Char) : List Stretch :=
  (physicalLines cs).flatMap fun line => stretchesOf (uncommented line)

/-- A text without the NUL character at its end, if there is one.  The assembler does not tell it
from the end of the source. -/
def withoutFinalNul (cs : List Char) : List Char :=
  if cs.getLast? = some '\x00' then cs.dropLast else cs

theorem stretchesOf_append (h : '\x00' ∉ text) :
    stretchesOf (text ++ code) = (stretchesOf code).modifyHead (.prepend text) := by
  induction text with
  | nil => exact (congrFun List.modifyHead_id (stretchesOf code)).symm
  | cons c cs ih =>
    obtain ⟨hc, hcs⟩ := not_or.mp (mt List.mem_cons.mpr h)
    rw [List.cons_append, stretchesOf, if_neg (Ne.symm hc), ih hcs, List.modifyHead_modifyHead]
    rfl

theorem stretchesOf_of_notMem (h : '\x00' ∉ code) : stretchesOf code = [⟨code, false⟩] := by
  rw [← List.append_nil code, stretchesOf_append h, stretchesOf, List.modifyHead_cons,
    Stretch.prepend]

theorem exists_stretchesOf (code : List Char) :
    ∃ st sts, stretchesOf code = st :: sts ∧ ∀ d ∈ st.code.head?, d ∈ code.head? := by
  induction code with
  | nil => exact ⟨_, _, rfl, fun _ hd => hd⟩
  | cons c cs ih =>
    obtain ⟨st, sts, hcs, -⟩ := ih
    rw [stretchesOf, hcs]
    split
    · exact ⟨_, _, rfl, nofun⟩
    · exact ⟨_, _, rfl, fun _ hd => hd⟩

/-- There is a first stretch; it begins as the text does, unless it is empty. -/
theorem exists_stretches (cs : List Char) :
    ∃ st sts, stretches cs = st :: sts ∧ ∀ d ∈ st.code.head?, d ∈ cs.head? := by
  obtain ⟨line, lines, hlines, hhead⟩ := exists_physicalLines cs
  obtain ⟨st, sts, hst, hcode⟩ := exists_stretchesOf (uncommented line)
  refine ⟨st, sts ++ lines.flatMap fun line => stretchesOf (uncommented line), ?_, fun d hd => ?_⟩
  · rw [stretches, hlines, List.flatMap_cons, hst]
    rfl
  · exact hhead d (mem_head?_of_uncommented (hcode d hd))

/-- What has neither ends of lines nor NUL characters nor comments stands in the first stretch. -/
theorem stretches_append (hline : ∀ c ∈ text, isNewline c = false) (hnul : '\x00' ∉ text)
    (hcomment : ∀ line : List Char, (∀ d ∈ line.head?, d ∈ cs.head?) →
      uncommented (text ++ line) = text ++ uncommented line) :
    stretches (text ++ cs) = (stretches cs).modifyHead (.prepend text) := by
  obtain ⟨line, lines, hlines, hhead⟩ := exists_physicalLines cs
  obtain ⟨st, sts, hst, -⟩ := exists_stretchesOf (uncommented line)
  unfold stretches
  rw [physicalLines_append hline, hlines, List.modifyHead_cons, List.flatMap_cons,
    hcomment line hhead, stretchesOf_append hnul, List.flatMap_cons, hst]
  rfl

theorem nul_notMem_of_blanks (h : Blanks gap) : '\x00' ∉ gap :=
  fun hnul => absurd (h _ hnul) (by decide)

theorem stretches_blanks (h : Blanks gap) (cs : List Char) :
    stretches (gap ++ cs) = (stretches cs).modifyHead (.prepend gap) :=
  stretches_append (fun c hc => not_newline_of_isBlank (h c hc)) (nul_notMem_of_blanks h)
    fun _ _ => uncommented_append (slash_notMem_of_blanks h)

/-- The end of a line ends a stretch. -/
theorem stretches_newline (hgap : Gap rest' gap) (h : Spells rest text .newline) :
    stretches (gap ++ (text ++ rest)) = ⟨uncommented gap, false⟩ :: stretches rest := by
  unfold stretches
  rw [physicalLines_append hgap.not_newline, h.physicalLines_append, List.modifyHead_cons,
    List.append_nil, List.flatMap_cons,
    stretchesOf_of_notMem (nul_notMem_of_blanks hgap.blanks_uncommented)]
  rfl

/-- So does the end of the source. -/
theorem stretches_gap (hgap : Gap [] gap) : stretches gap = [⟨uncommented gap, false⟩] := by
  have hline : physicalLines gap = [gap] := by
    rw [← List.append_nil gap, physicalLines_append hgap.not_newline]
    rfl
  rw [stretches, hline, List.flatMap_singleton,
    stretchesOf_of_notMem (nul_notMem_of_blanks hgap.blanks_uncommented)]

/-- And so does a NUL character. -/
theorem stretches_nul (hgap : Blanks gap) (rest : List Char) :
    stretches (gap ++ '\x00' :: rest) = ⟨gap, true⟩ :: stretches rest := by
  have hrest : stretches ('\x00' :: rest) = ⟨[], true⟩ :: stretches rest := by
    obtain ⟨line, lines, hlines, -⟩ := exists_physicalLines rest
    unfold stretches
    rw [physicalLines_cons (by decide), hlines, List.modifyHead_cons, List.flatMap_cons,
      uncommented_cons fun h => absurd h (by decide), stretchesOf, if_pos rfl, List.flatMap_cons]
    rfl
  rw [stretches_blanks hgap, hrest, List.modifyHead_cons, Stretch.prepend, List.append_nil]

/-! ### A NUL character at the end -/

theorem withoutFinalNul_isPrefix (cs : List Char) : withoutFinalNul cs <+: cs := by
  unfold withoutFinalNul
  split
  · exact List.dropLast_prefix cs
  · exact List.prefix_rfl

theorem head?_withoutFinalNul (cs : List Char) :
    ∀ d ∈ (withoutFinalNul cs).head?, d ∈ cs.head? := by
  obtain ⟨rest, hrest⟩ := withoutFinalNul_isPrefix cs
  intro d hd
  rw [← hrest, List.head?_append, Option.mem_def.mp hd]
  rfl

theorem withoutFinalNul_append (h : rest ≠ []) :
    withoutFinalNul (text ++ rest) = text ++ withoutFinalNul rest := by
  unfold withoutFinalNul
  rw [List.getLast?_append_of_ne_nil _ h, List.dropLast_append_of_ne_nil h]
  split <;> rfl

theorem withoutFinalNul_of_notMem (h : '\x00' ∉ cs) : withoutFinalNul cs = cs :=
  if_neg fun hlast => h (List.mem_of_getLast? hlast)

theorem withoutFinalNul_append_of_notMem (h : '\x00' ∉ text) :
    withoutFinalNul (text ++ rest) = text ++ withoutFinalNul rest := by
  by_cases hrest : rest = []
  · rw [hrest, List.append_nil, withoutFinalNul_of_notMem h]
    exact (List.append_nil text).symm
  · exact withoutFinalNul_append hrest

theorem withoutFinalNul_concat (cs : List Char) : withoutFinalNul (cs ++ ['\x00']) = cs := by
  unfold withoutFinalNul
  rw [List.getLast?_concat, if_pos rfl, List.dropLast_concat]

/-- A gap at the end of the source is one without a NUL character at its end, too. -/
theorem Gap.withoutFinalNul (h : Gap [] gap) : Gap [] (withoutFinalNul gap) := by
  cases h with
  | blanks h =>
    rw [withoutFinalNul_of_notMem (nul_notMem_of_blanks h)]
    exact .blanks h
  | @comment blanks body h hbody _ =>
    have hslashes : '\x00' ∉ ['/', '/'] := by decide
    have hcomment : Hack.withoutFinalNul ('/' :: '/' :: body) =
        '/' :: '/' :: Hack.withoutFinalNul body :=
      withoutFinalNul_append_of_notMem hslashes
    rw [withoutFinalNul_append_of_notMem (nul_notMem_of_blanks h), hcomment]
    exact .comment h (fun c hc => hbody c ((withoutFinalNul_isPrefix body).subset hc)) nofun

/-! ### Lines of tokens -/

/-- The tokens of a line without its comment, wherever they stand. -/
inductive Scans : List Char → List Token → Prop where
  | nil {code : List Char} : Blanks code → Scans code []
  | cons {gap rest : List Char} {t : Token} {ts : List Token} : Blanks gap →
      Spells rest t.text.toList t.kind →
      t.kind.endsLine = false → Scans rest ts → Scans (gap ++ (t.text.toList ++ rest)) (t :: ts)

theorem scans_tokenAt {offset : Nat} (hgap : Blanks gap) (h : Spells rest text kind)
    (hkind : kind.endsLine = false) (hrest : Scans rest ts) :
    Scans (gap ++ (text ++ rest)) (tokenAt offset kind text :: ts) := by
  have htext : (tokenAt offset kind text).text.toList = text := String.toList_ofList
  have hscans := Scans.cons (t := tokenAt offset kind text) hgap (by rwa [htext]) hkind hrest
  rwa [htext] at hscans

/-- A line of tokens of a stretch in a source of `size` bytes. -/
structure ScannedAs (size : Nat) (st : Stretch) (l : TokenLine) : Prop where
  body : Scans st.code l.body
  ends : l.stop.kind.endsLine = true
  /-- An end of file in front of the end of the source is a NUL character. -/
  stop : st.nul = true ↔ l.stop.kind = .endOfFile ∧ l.stop.span.stop ≠ size

theorem tokenLinesFrom_eq (body : List Token) (done : List TokenLine) (ts : List Token) :
    tokenLinesFrom body done ts =
      done.reverse ++ (tokenLines ts).modifyHead fun l => ⟨body.reverse ++ l.body, l.stop⟩ := by
  unfold tokenLines
  induction ts generalizing body done with
  | nil => exact (List.append_nil _).symm
  | cons t ts ih =>
    unfold tokenLinesFrom
    split
    · rw [ih [] (⟨body.reverse, t⟩ :: done), ih [] [⟨[].reverse, t⟩], List.reverse_cons,
        List.append_assoc]
      simp
    · rw [ih (t :: body) done, ih [t] [], List.reverse_nil, List.nil_append,
        List.modifyHead_modifyHead]
      simp [Function.comp_def]

theorem tokenLines_ending (h : t.kind.endsLine = true) :
    tokenLines (t :: ts) = ⟨[], t⟩ :: tokenLines ts := by
  unfold tokenLines
  rw [tokenLinesFrom, if_pos h, tokenLinesFrom_eq]
  exact congrArg (_ :: ·) (congrFun List.modifyHead_id (tokenLines ts))

theorem tokenLines_cons (h : t.kind.endsLine = false) :
    tokenLines (t :: ts) = (tokenLines ts).modifyHead fun l => ⟨t :: l.body, l.stop⟩ := by
  unfold tokenLines
  rw [tokenLinesFrom, h, if_neg Bool.false_ne_true, tokenLinesFrom_eq]
  rfl

theorem byteLength_pos (h : cs ≠ []) : 0 < byteLength cs := by
  obtain ⟨c, cs, rfl⟩ := List.exists_cons_of_ne_nil h
  have hcons : byteLength (c :: cs) = byteLength [c] + byteLength cs := by
    rw [← byteLength_append, List.singleton_append]
  have hc : byteLength [c] = c.utf8Size := Nat.zero_add _
  have hpos := c.utf8Size_pos
  omega

/-- **The lines of tokens are those of the stretches of the source.** -/
theorem scanned_tokenLines {offset size : Nat} (h : Tiling offset cs ts)
    (hsize : offset + byteLength cs = size) :
    List.Forall₂ (ScannedAs size) (stretches (withoutFinalNul cs)) (tokenLines ts) := by
  induction h with
  | @stop offset gap hgap =>
    rw [stretches_gap hgap.withoutFinalNul]
    refine .cons ⟨.nil hgap.withoutFinalNul.blanks_uncommented, rfl, ?_⟩ .nil
    exact iff_of_false Bool.false_ne_true fun hstop => hstop.2 hsize
  | @last offset gap text hgap hspells =>
    obtain rfl := hspells.eq_nul
    have hgap : Gap [] gap := .blanks (hgap.blanks_of_head (by decide))
    rw [withoutFinalNul_concat, stretches_gap hgap]
    refine .cons ⟨.nil hgap.blanks_uncommented, rfl,
      iff_of_false Bool.false_ne_true fun hstop => hstop.2 ?_⟩ .nil
    rw [← hsize, byteLength_append, ← Nat.add_assoc]
    rfl
  | @token offset gap text rest kind ts hgap hspells hmore _ ih =>
    have hrestSize : offset + byteLength gap + byteLength text + byteLength rest = size := by
      rw [← hsize, byteLength_append, byteLength_append]
      omega
    have hne : text ++ rest ≠ [] := fun hnil => hspells.ne_nil (List.append_eq_nil_iff.mp hnil).1
    have hhead := head?_withoutFinalNul rest
    replace ih := ih hrestSize
    rw [withoutFinalNul_append hne]
    by_cases hnul : kind = .endOfFile
    · -- A NUL character ends a stretch, and there is something behind it.
      subst hnul
      obtain rfl := hspells.eq_nul
      have hblanks : Blanks gap := hgap.blanks_of_head (by decide)
      have hrest := hmore rfl
      rw [withoutFinalNul_append hrest, List.singleton_append, stretches_nul hblanks,
        tokenLines_ending rfl]
      refine .cons ⟨.nil hblanks, rfl, iff_of_true rfl ⟨rfl, ?_⟩⟩ ih
      have hpos := byteLength_pos hrest
      show offset + byteLength gap + byteLength ['\x00'] ≠ size
      omega
    rw [withoutFinalNul_append_of_notMem (hspells.nul_notMem hnul)]
    by_cases hnewline : kind = .newline
    · -- The token ends its line, in which there is nothing but the gap.
      subst hnewline
      rw [stretches_newline hgap (hspells.of_head hhead), tokenLines_ending rfl]
      exact .cons ⟨.nil hgap.blanks_uncommented, rfl, iff_of_false Bool.false_ne_true nofun⟩ ih
    · -- The token is the first of its stretch, which goes on with the first of the stretches that
      -- are left.
      have hends : kind.endsLine = false := by
        cases kind <;> first | rfl | exact absurd rfl hnul | exact absurd rfl hnewline
      have hblanks : Blanks gap := by
        obtain ⟨c, cs, rfl⟩ := List.exists_cons_of_ne_nil hspells.ne_nil
        exact hgap.blanks_of_head (hspells.not_newline hnewline c List.mem_cons_self)
      obtain ⟨st, sts, hst, hcode⟩ := exists_stretches (withoutFinalNul rest)
      rw [stretches_blanks hblanks,
        stretches_append (hspells.not_newline hnewline) (hspells.nul_notMem hnul)
        fun line hline => hspells.uncommented_append fun d hd => hhead d (hline d hd),
        tokenLines_cons hends, hst]
      rw [hst, List.forall₂_cons_left_iff] at ih
      obtain ⟨l, ls, hl, hls, htokens⟩ := ih
      rw [htokens]
      refine .cons ⟨?_, hl.ends, hl.stop⟩ hls
      exact scans_tokenAt hblanks (hspells.of_head fun d hd => hhead d (hcode d hd)) hends hl.body

end JackToolchain.Hack
