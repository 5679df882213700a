import JackToolchain.Proofs.Hack.FirstPass
import JackToolchain.Proofs.Text.Characters

/-!
# The tokens of an assembly source

An assembly source is covered by its tokens and the gaps between them.  `Tiling` states this as a
relation between the characters of a source and its tokens, with the characters that follow in view:
a comment ends where the line does, and a symbol or a number where no more of its characters follow.
A source has one tiling (`exists_tiling`), and the lexer finds it (`tiling_tokens`).
-/

namespace JackToolchain.Hack

/-! ### Gaps and tokens -/

/-- Nothing but blanks. -/
def Blanks (text : List Char) : Prop := ∀ c ∈ text, isBlank c = true

instance (text : List Char) : Decidable (Blanks text) :=
  inferInstanceAs (Decidable (∀ c ∈ text, isBlank c = true))

/-- A gap: blanks, and perhaps a comment up to the end of the line or source. -/
inductive Gap (rest : List Char) : List Char → Prop where
  | blanks {blanks : List Char} : Blanks blanks → Gap rest blanks
  | comment {blanks body : List Char} : Blanks blanks → (∀ c ∈ body, isNewline c = false) →
      (∀ c ∈ rest.head?, isNewline c = true) → Gap rest (blanks ++ '/' :: '/' :: body)

/-- What a text spells, if it is a token. -/
inductive Spells (rest : List Char) : List Char → TokenKind → Prop where
  /-- A carriage return in front of a line feed is not a token by itself. -/
  | char {c : Char} {kind : TokenKind} : TokenKind.ofChar? c = some kind →
      (c = '\r' → ∀ d ∈ rest.head?, d ≠ '\n') → Spells rest [c] kind
  | crlf : Spells rest ['\r', '\n'] .newline
  | symbol {c : Char} {cs : List Char} : isSymbolStart c = true →
      (∀ d ∈ cs, isSymbolPart d = true) →
      (∀ d ∈ rest.head?, isSymbolPart d = false) → Spells rest (c :: cs) .symbol
  | number {c : Char} {cs : List Char} : c.isDigit = true → (∀ d ∈ cs, d.isDigit = true) →
      (∀ d ∈ rest.head?, d.isDigit = false) → Spells rest (c :: cs) .number
  /-- A slash in front of another one begins a comment. -/
  | unknown {c : Char} : TokenKind.ofChar? c = none → isSymbolPart c = false → isBlank c = false →
      (c = '/' → ∀ d ∈ rest.head?, d ≠ '/') → Spells rest [c] .unknown

/-- The token of a text at an offset. -/
def tokenAt (offset : Nat) (kind : TokenKind) (text : List Char) : Token :=
  ⟨kind, String.ofList text, ⟨offset, byteLength text⟩⟩

/-- The tokens of a source from an offset on.  The last one is an end of file with nothing behind
it: the end of the source, or a NUL character there. -/
inductive Tiling : Nat → List Char → List Token → Prop where
  | stop {offset : Nat} {gap : List Char} : Gap [] gap →
      Tiling offset gap [tokenAt (offset + byteLength gap) .endOfFile []]
  | last {offset : Nat} {gap text : List Char} : Gap text gap → Spells [] text .endOfFile →
      Tiling offset (gap ++ text) [tokenAt (offset + byteLength gap) .endOfFile text]
  | token {offset : Nat} {gap text rest : List Char} {kind : TokenKind} {ts : List Token} :
      Gap (text ++ rest) gap → Spells rest text kind → (kind = .endOfFile → rest ≠ []) →
      Tiling (offset + byteLength gap + byteLength text) rest ts →
      Tiling offset (gap ++ (text ++ rest)) (tokenAt (offset + byteLength gap) kind text :: ts)

/-! ### Reading along a tiling -/

variable {c : Char} {cs gap text rest : List Char} {kind : TokenKind} {offset : Nat}

/-- Where a token begins there is neither a blank nor a comment. -/
structure Settled (cs : List Char) : Prop where
  not_blank : ∀ c ∈ cs.head?, isBlank c = false
  not_comment : ¬['/', '/'] <+: cs

theorem Spells.ne_nil (h : Spells rest text kind) : text ≠ [] := by
  cases h <;> exact List.cons_ne_nil _ _

/-- A character that is a token by itself is in no other token, and in no gap. -/
theorem of_ofChar? (h : TokenKind.ofChar? c = some kind) :
    isBlank c = false ∧ isSymbolPart c = false ∧ c ≠ '/' := by
  unfold TokenKind.ofChar? at h
  split at h <;> first | (cases h; done) | decide

theorem settled_of_head (hblank : isBlank c = false) (hslash : c = '/' → ∀ d ∈ cs.head?, d ≠ '/') :
    Settled (c :: cs) where
  not_blank := by
    rintro _ ⟨⟩
    exact hblank
  not_comment := by
    intro h
    obtain ⟨hc, hcs⟩ := List.cons_prefix_cons.mp h
    obtain ⟨rest, rfl⟩ := hcs
    exact hslash hc.symm '/' rfl rfl

theorem settled_of_isSymbolPart (h : isSymbolPart c = true) : Settled (c :: cs) := by
  obtain ⟨-, hblank, hslash, -⟩ := of_isSymbolPart h
  exact settled_of_head hblank fun hc => absurd hc hslash

theorem Spells.settled (h : Spells rest text kind) : Settled (text ++ rest) := by
  cases h with
  | char hc _ => exact settled_of_head (of_ofChar? hc).1 fun h => absurd h (of_ofChar? hc).2.2
  | crlf => exact settled_of_head (by decide) fun h => absurd h (by decide)
  | symbol hc _ _ => exact settled_of_isSymbolPart (isSymbolPart_of_isSymbolStart hc)
  | number hc _ _ => exact settled_of_isSymbolPart (isSymbolPart_of_isDigit hc)
  | unknown _ _ hblank hslash => exact settled_of_head hblank hslash

theorem settled_of_isNewline (h : ∀ c ∈ cs.head?, isNewline c = true) : Settled cs := by
  cases cs with
  | nil => exact ⟨nofun, by decide⟩
  | cons c cs =>
    have hc : c = '\r' ∨ c = '\n' := by simpa [isNewline] using h c rfl
    rcases hc with rfl | rfl
    · exact settled_of_head (by decide) fun h => absurd h (by decide)
    · exact settled_of_head (by decide) fun h => absurd h (by decide)

namespace Cursor

theorem skipWhile_run {p : Char → Bool} (hgap : ∀ c ∈ gap, p c = true)
    (hrest : ∀ c ∈ rest.head?, p c = false) :
    skipWhile ⟨gap ++ rest, offset⟩ p = ⟨rest, offset + byteLength gap⟩ := by
  unfold skipWhile
  dsimp only
  rw [Text.takeWhile_run hgap hrest, Text.dropWhile_run hgap hrest]

theorem skipGap_eq (c : Cursor) :
    c.skipGap = if ['/', '/'] <+: (c.skipWhile isBlank).rest then
      (c.skipWhile isBlank).skipWhile fun x => !isNewline x else c.skipWhile isBlank := by
  unfold skipGap
  dsimp only
  split
  · next h =>
    rw [if_pos (by rw [h]; exact ⟨_, rfl⟩)]
  · next h =>
    rw [if_neg]
    rintro ⟨cs, hcs⟩
    exact h cs hcs.symm

/-- Gaps are skipped. -/
theorem skipGap_gap (h : Gap rest gap) (hrest : Settled rest) :
    skipGap ⟨gap ++ rest, offset⟩ = ⟨rest, offset + byteLength gap⟩ := by
  rw [skipGap_eq]
  cases h with
  | blanks hblanks => rw [skipWhile_run hblanks hrest.not_blank, if_neg hrest.not_comment]
  | @comment blanks body hblanks hbody hend =>
    have hcomment : ∀ c ∈ '/' :: '/' :: body, (!isNewline c) = true := by
      simp only [List.mem_cons, forall_eq_or_imp, Bool.not_eq_true']
      exact ⟨by decide, by decide, hbody⟩
    have hstop : ∀ c ∈ rest.head?, (!isNewline c) = false := fun c hc => by rw [hend c hc]; rfl
    have hslash : ∀ c ∈ ('/' :: '/' :: (body ++ rest)).head?, isBlank c = false := by
      rintro _ ⟨⟩
      decide
    rw [List.append_assoc, List.cons_append, List.cons_append, skipWhile_run hblanks hslash,
      if_pos ⟨_, rfl⟩, ← List.cons_append, ← List.cons_append, skipWhile_run hcomment hstop,
      byteLength_append, Nat.add_assoc]

theorem tokenHere_cons (h : c = '\r' → ∀ d ∈ cs.head?, d ≠ '\n') :
    tokenHere ⟨c :: cs, offset⟩ = (match TokenKind.ofChar? c with
      | some kind => token ⟨c :: cs, offset⟩ kind [c] cs
      | none =>
        if isSymbolStart c then
          token ⟨c :: cs, offset⟩ .symbol (c :: cs.takeWhile isSymbolPart)
            (cs.dropWhile isSymbolPart)
        else if c.isDigit then
          token ⟨c :: cs, offset⟩ .number (c :: cs.takeWhile Char.isDigit)
            (cs.dropWhile Char.isDigit)
        else token ⟨c :: cs, offset⟩ .unknown [c] cs) := by
  unfold tokenHere
  split
  · next heq => cases heq
  · next heq =>
    cases heq
    exact absurd rfl (h rfl '\n' rfl)
  · next heq =>
    cases heq
    rfl

/-- A token is read. -/
theorem tokenHere_spells (h : Spells rest text kind) :
    tokenHere ⟨text ++ rest, offset⟩ =
      (tokenAt offset kind text, ⟨rest, offset + byteLength text⟩) := by
  cases h with
  | crlf => rfl
  | char hc hreturn =>
    rw [List.singleton_append, tokenHere_cons hreturn, hc]
    rfl
  | @symbol c cs hc hcs hstop =>
    obtain ⟨hchar, -, -, hreturn, -⟩ := of_isSymbolPart (isSymbolPart_of_isSymbolStart hc)
    rw [List.cons_append, tokenHere_cons fun h => absurd h hreturn, hchar]
    dsimp only
    rw [if_pos hc, Text.takeWhile_run hcs hstop, Text.dropWhile_run hcs hstop]
    rfl
  | @number c cs hc hcs hstop =>
    obtain ⟨hchar, -, -, hreturn, -⟩ := of_isSymbolPart (isSymbolPart_of_isDigit hc)
    rw [List.cons_append, tokenHere_cons fun h => absurd h hreturn, hchar]
    dsimp only
    rw [isSymbolStart_of_isDigit hc, if_neg Bool.false_ne_true, if_pos hc,
      Text.takeWhile_run hcs hstop, Text.dropWhile_run hcs hstop]
    rfl
  | @unknown c hc hpart _ _ =>
    have hreturn : c ≠ '\r' := by
      rintro rfl
      cases hc
    obtain ⟨hstart, hdigit⟩ := Bool.or_eq_false_iff.mp hpart
    rw [List.singleton_append, tokenHere_cons fun h => absurd h hreturn, hc]
    dsimp only
    rw [hstart, hdigit, if_neg Bool.false_ne_true, if_neg Bool.false_ne_true]
    rfl

/-- The token behind a gap. -/
theorem next_of_spells (hgap : Gap (text ++ rest) gap) (h : Spells rest text kind) :
    next ⟨gap ++ (text ++ rest), offset⟩ =
      (tokenAt (offset + byteLength gap) kind text,
      ⟨rest, offset + byteLength gap + byteLength text⟩) := by
  unfold next
  rw [skipGap_gap hgap h.settled, tokenHere_spells h]

theorem next_of_end (hgap : Gap [] gap) :
    next ⟨gap, offset⟩ = (tokenAt (offset + byteLength gap) .endOfFile [],
      ⟨[], offset + byteLength gap⟩) := by
  have hskip : skipGap ⟨gap ++ [], offset⟩ = _ := skipGap_gap hgap ⟨nofun, by decide⟩
  rw [List.append_nil] at hskip
  unfold next
  rw [hskip]
  rfl

theorem tokensFrom_append (done base : List Token) (c : Cursor) :
    tokensFrom (done ++ base) c = base.reverse ++ tokensFrom done c := by
  fun_induction tokensFrom done c with
  | case1 done c read hlast =>
    rw [tokensFrom, dif_pos hlast, ← List.cons_append, List.reverse_append]
  | case2 done c read hlast ih =>
    rw [tokensFrom, dif_neg hlast]
    exact ih

theorem tokensFrom_of_last {t : Token} {c d : Cursor} (h : c.next = (t, d))
    (hkind : t.kind = .endOfFile) (hend : d.rest = []) : tokensFrom [] c = [t] := by
  rw [tokensFrom, h, dif_pos ⟨hkind, by rw [atEnd, hend]; rfl⟩]
  rfl

theorem tokensFrom_of_next {t : Token} {c d : Cursor} (h : c.next = (t, d))
    (hmore : t.kind = .endOfFile → d.rest ≠ []) : tokensFrom [] c = t :: tokensFrom [] d := by
  have hlast : ¬(t.kind = .endOfFile ∧ d.atEnd = true) :=
    fun hl => hmore hl.1 (List.isEmpty_iff.mp hl.2)
  rw [tokensFrom, h, dif_neg hlast]
  exact tokensFrom_append [] [t] d

/-- **The lexer finds the tiling of a source.** -/
theorem tokensFrom_of_tiling {ts : List Token} (h : Tiling offset cs ts) :
    tokensFrom [] ⟨cs, offset⟩ = ts := by
  induction h with
  | stop hgap => exact tokensFrom_of_last (next_of_end hgap) rfl rfl
  | @last offset gap text hgap hspells =>
    rw [← List.append_nil text] at hgap
    have hnext : next ⟨gap ++ (text ++ []), offset⟩ = _ := next_of_spells hgap hspells
    rw [List.append_nil] at hnext
    exact tokensFrom_of_last hnext rfl rfl
  | token hgap hspells hmore _ ih => rw [tokensFrom_of_next (next_of_spells hgap hspells) hmore, ih]

end Cursor

/-! ### Every source has a tiling -/

/-- Every source begins with a gap, which may be empty. -/
theorem exists_gap (cs : List Char) :
    ∃ gap rest, cs = gap ++ rest ∧ Gap rest gap ∧ Settled rest := by
  have hblanks : Blanks (cs.takeWhile isBlank) := fun _ hc => Text.of_mem_takeWhile hc
  have hsplit : cs = cs.takeWhile isBlank ++ cs.dropWhile isBlank :=
    List.takeWhile_append_dropWhile.symm
  -- Behind the blanks there may be one comment.  It ends where the line does, and so does the gap.
  by_cases hcomment : ['/', '/'] <+: cs.dropWhile isBlank
  · obtain ⟨behind, hbehind⟩ := hcomment
    have hend : ∀ c ∈ (behind.dropWhile fun x => !isNewline x).head?, isNewline c = true := by
      intro c hc
      simpa using Text.of_head?_dropWhile hc
    have hbody : ∀ c ∈ behind.takeWhile fun x => !isNewline x, isNewline c = false := by
      intro c hc
      simpa using Text.of_mem_takeWhile hc
    refine ⟨_, _, ?_, .comment hblanks hbody hend, settled_of_isNewline hend⟩
    rw [List.append_assoc, List.cons_append, List.cons_append, List.takeWhile_append_dropWhile]
    exact hsplit.trans (congrArg _ hbehind.symm)
  · exact ⟨_, _, hsplit, .blanks hblanks, fun _ hc => Text.of_head?_dropWhile hc, hcomment⟩

/-- What is neither the end of the source nor a gap begins with a token. -/
theorem exists_spells (h : Settled (c :: cs)) :
    ∃ text rest kind, c :: cs = text ++ rest ∧ Spells rest text kind := by
  have hrun (p : Char → Bool) : c :: cs = (c :: cs.takeWhile p) ++ cs.dropWhile p := by
    rw [List.cons_append, List.takeWhile_append_dropWhile]
  -- The only token of two characters of different kinds comes first.
  by_cases hcrlf : c = '\r' ∧ ∃ d ∈ cs.head?, d = '\n'
  · obtain ⟨rfl, _, hd, rfl⟩ := hcrlf
    obtain ⟨cs, rfl⟩ := List.head?_eq_some_iff.mp hd
    exact ⟨_, cs, _, rfl, .crlf⟩
  cases hchar : TokenKind.ofChar? c with
  | some kind =>
    exact ⟨[c], cs, kind, rfl, .char hchar fun hc d hd hline => hcrlf ⟨hc, d, hd, hline⟩⟩
  | none =>
    by_cases hstart : isSymbolStart c = true
    · exact ⟨_, _, _, hrun isSymbolPart,
        .symbol hstart (fun _ => Text.of_mem_takeWhile) fun _ => Text.of_head?_dropWhile⟩
    by_cases hdigit : c.isDigit = true
    · exact ⟨_, _, _, hrun Char.isDigit,
        .number hdigit (fun _ => Text.of_mem_takeWhile) fun _ => Text.of_head?_dropWhile⟩
    have hpart : isSymbolPart c = false := by
      rw [isSymbolPart, Bool.eq_false_iff.mpr hstart, Bool.eq_false_iff.mpr hdigit]
      rfl
    refine ⟨[c], cs, _, rfl, .unknown hchar hpart (h.not_blank c rfl) fun hc d hd hslash =>
      h.not_comment ?_⟩
    obtain ⟨cs, rfl⟩ := List.head?_eq_some_iff.mp hd
    rw [hc, hslash]
    exact ⟨cs, rfl⟩

/-- **Every source has a tiling.** -/
theorem exists_tiling (offset : Nat) (cs : List Char) : ∃ ts, Tiling offset cs ts := by
  induction hn : cs.length using Nat.strongRecOn generalizing cs offset with
  | ind n ih =>
    subst hn
    obtain ⟨gap, behind, rfl, hgap, hsettled⟩ := exists_gap cs
    cases behind with
    | nil =>
      rw [List.append_nil]
      exact ⟨_, .stop hgap⟩
    | cons c cs =>
      obtain ⟨text, rest, kind, hsplit, hspells⟩ := exists_spells hsettled
      rw [hsplit] at hgap ih ⊢
      -- A character that stands for the end of the file ends the tokens only at the end of the
      -- source.
      by_cases hlast : kind = .endOfFile ∧ rest = []
      · obtain ⟨rfl, rfl⟩ := hlast
        rw [List.append_nil] at hgap ⊢
        exact ⟨_, .last hgap hspells⟩
      · have hless : rest.length < (gap ++ (text ++ rest)).length := by
          have := List.length_pos_iff.mpr hspells.ne_nil
          simp only [List.length_append]
          omega
        obtain ⟨ts, hts⟩ := ih _ hless (offset + byteLength gap + byteLength text) rest rfl
        exact ⟨_, .token hgap hspells (fun hk hr => hlast ⟨hk, hr⟩) hts⟩

/-- The tokens of a source are those of its tiling. -/
theorem tiling_tokens (source : String) : Tiling 0 source.toList (tokens source) := by
  obtain ⟨ts, hts⟩ := exists_tiling 0 source.toList
  have htokens : tokens source = ts := Cursor.tokensFrom_of_tiling hts
  rwa [htokens]

end JackToolchain.Hack
