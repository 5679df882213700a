import JackToolchain.Proofs.Hack.LineReading
import JackToolchain.Proofs.Hack.Places
import Mathlib.Data.List.Forall2

/-!
# Assembling a source in parts

If a source is put together from parts that end with a line feed, its tokens are those of the parts,
with other offsets (`exists_tiles`).  Reading a line of tokens does not depend on offsets
(`TokenLine.read_alike`), so the first pass over the source is the first pass over one part after
the other, and so is what is reported, apart from the numbers of lines (`Program.glance_append`).
-/

namespace JackToolchain.Hack

variable {x y cs gap text rest rest' : List Char} {offset n size size' : Nat} {kind : TokenKind}
  {t t' : Token} {ts ts' : List Token}

/-! ### Tokens of parts -/

/-- The token, where `n` bytes are put in front of the source. -/
def Token.shift (n : Nat) (t : Token) : Token := { t with span := t.span.shift n }

theorem tokenAt_add (offset n : Nat) (kind : TokenKind) (text : List Char) :
    tokenAt (offset + n) kind text = (tokenAt offset kind text).shift n := rfl

/-- **The tokens of a source do not depend on where it stands.** -/
theorem Tiling.shift (h : Tiling offset cs ts) (n : Nat) :
    Tiling (offset + n) cs (ts.map (Token.shift n)) := by
  induction h with
  | @stop offset gap hgap =>
    have hstop : Tiling (offset + n) gap _ := .stop hgap
    rwa [Nat.add_right_comm, tokenAt_add] at hstop
  | @last offset gap text hgap hspells =>
    have hlast : Tiling (offset + n) (gap ++ text) _ := .last hgap hspells
    rwa [Nat.add_right_comm, tokenAt_add] at hlast
  | @token offset gap text rest kind ts hgap hspells hmore _ ih =>
    rw [List.map_cons, ← tokenAt_add, Nat.add_right_comm _ _ n]
    refine .token hgap hspells hmore ?_
    rwa [Nat.add_right_comm offset n, Nat.add_right_comm _ n]

/-- Whether a text is a gap depends on the next character only. -/
theorem Gap.of_head (h : Gap rest gap) (hrest : ∀ c ∈ rest'.head?, c ∈ rest.head?) :
    Gap rest' gap := by
  cases h with
  | blanks hblanks => exact .blanks hblanks
  | comment hblanks hbody hend => exact .comment hblanks hbody fun c hc => hend c (hrest c hc)

/-- The tokens of a part of a source that ends with a line feed. -/
structure Tiles (offset : Nat) (x : List Char) (ts : List Token) : Prop where
  /-- The tokens of what follows stand behind them. -/
  tiling : ∀ {y : List Char} {ts' : List Token}, Tiling (offset + byteLength x) y ts' →
    Tiling offset (x ++ y) (ts ++ ts')
  ends : ∃ t, ts.getLast? = some t ∧ t.kind.endsLine = true
  inside : ∀ t ∈ ts, t.span.index < offset + byteLength x
  /-- A NUL character is not the end of the part. -/
  nul : ∀ t ∈ ts, t.kind = .endOfFile → t.span.stop < offset + byteLength x

/-- A line feed ends a token that ends the line, whatever stands behind it. -/
theorem Spells.of_feed (h : Spells rest text kind) (htext : text.getLast? = some '\n')
    (rest' : List Char) : kind = .newline ∧ Spells rest' text kind := by
  have hkind : kind = .newline := by
    by_contra hne
    exact absurd (h.not_newline hne '\n' (List.mem_of_getLast? htext)) (by decide)
  refine ⟨hkind, ?_⟩
  cases h with
  | @char c kind hc hreturn =>
    obtain rfl : c = '\n' := Option.some.inj htext
    exact .char hc fun h => absurd h (by decide)
  | crlf => exact .crlf
  | symbol | number | unknown => cases hkind

/-- The line feed at the end of a part is in its last token. -/
theorem Tiles.last (hgap : Gap text gap) (h : Spells [] text kind)
    (htext : text.getLast? = some '\n') :
    Tiles offset (gap ++ text) [tokenAt (offset + byteLength gap) kind text] := by
  have hpos := byteLength_pos h.ne_nil
  obtain ⟨rfl, -⟩ := h.of_feed htext []
  refine ⟨fun {y ts'} hy => ?_, ⟨_, rfl, rfl⟩, List.forall_mem_singleton.mpr ?_,
    List.forall_mem_singleton.mpr nofun⟩
  · rw [byteLength_append, ← Nat.add_assoc] at hy
    rw [List.append_assoc]
    refine .token (hgap.of_head fun c hc => ?_) (h.of_feed htext y).2 nofun hy
    rwa [List.head?_append_of_ne_nil _ h.ne_nil] at hc
  · rw [byteLength_append]
    show offset + byteLength gap < _
    omega

theorem Tiles.cons (hgap : Gap (text ++ rest) gap) (h : Spells rest text kind) (hrest : rest ≠ [])
    (hts : Tiles (offset + byteLength gap + byteLength text) rest ts) :
    Tiles offset (gap ++ (text ++ rest)) (tokenAt (offset + byteLength gap) kind text :: ts) := by
  have hpos := byteLength_pos hrest
  have hsize : offset + byteLength (gap ++ (text ++ rest)) =
      offset + byteLength gap + byteLength text + byteLength rest := by
    rw [byteLength_append, byteLength_append]
    omega
  obtain ⟨last, hlast, hends⟩ := hts.ends
  refine ⟨fun {y ts'} hy => ?_, ⟨last, ?_, hends⟩, ?_, ?_⟩
  · rw [hsize] at hy
    rw [List.append_assoc, List.append_assoc]
    refine .token (hgap.of_head fun c hc => ?_) (h.of_head fun c hc => ?_) ?_ (hts.tiling hy)
    · rwa [List.head?_append_of_ne_nil _ h.ne_nil] at hc ⊢
    · rwa [List.head?_append_of_ne_nil _ hrest] at hc
    · exact fun _ => List.append_ne_nil_of_left_ne_nil hrest y
  · rw [List.getLast?_cons, hlast]
    rfl
  · rw [hsize]
    refine List.forall_mem_cons.mpr ⟨?_, hts.inside⟩
    show offset + byteLength gap < _
    omega
  · rw [hsize]
    refine List.forall_mem_cons.mpr ⟨fun _ => ?_, hts.nul⟩
    show offset + byteLength gap + byteLength text < _
    omega

/-- **A part of a source has the same tokens, whatever stands behind it.** -/
theorem exists_tiles (hx : x.getLast? = some '\n') (offset : Nat) : ∃ ts, Tiles offset x ts := by
  induction hn : x.length using Nat.strongRecOn generalizing x offset with
  | ind n ih =>
    subst hn
    obtain ⟨gap, behind, rfl, hgap, hsettled⟩ := exists_gap x
    cases behind with
    | nil =>
      -- There is no line feed in a gap.
      rw [List.append_nil] at hx
      exact absurd (hgap.not_newline '\n' (List.mem_of_getLast? hx)) (by decide)
    | cons c cs =>
      obtain ⟨text, rest, kind, hsplit, hspells⟩ := exists_spells hsettled
      rw [hsplit] at hx hgap ih ⊢
      rw [List.getLast?_append_of_ne_nil _ (List.append_ne_nil_of_left_ne_nil hspells.ne_nil _)]
        at hx
      by_cases hrest : rest = []
      · subst hrest
        rw [List.append_nil] at hx hgap ⊢
        exact ⟨_, .last hgap hspells hx⟩
      · rw [List.getLast?_append_of_ne_nil _ hrest] at hx
        have hless : rest.length < (gap ++ (text ++ rest)).length := by
          have htext := List.length_pos_iff.mpr hspells.ne_nil
          rw [List.length_append, List.length_append]
          omega
        obtain ⟨ts, hts⟩ := ih _ hless hx (offset + byteLength gap + byteLength text) rfl
        exact ⟨_, .cons hgap hspells hrest hts⟩

/-- The line, where `n` bytes are put in front of the source. -/
def TokenLine.shift (n : Nat) (l : TokenLine) : TokenLine :=
  ⟨l.body.map (Token.shift n), l.stop.shift n⟩

/-- Behind a token that ends a line, the next line begins. -/
theorem tokenLines_append_of_ends (h : ∃ t, ts.getLast? = some t ∧ t.kind.endsLine = true)
    (ts' : List Token) : tokenLines (ts ++ ts') = tokenLines ts ++ tokenLines ts' := by
  obtain ⟨last, hlast, hends⟩ := h
  have hfrom (body : List Token) (done : List TokenLine) :
      tokenLinesFrom body done (ts ++ ts') = tokenLinesFrom body done ts ++ tokenLines ts' := by
    induction ts generalizing body done with
    | nil => cases hlast
    | cons t ts ih =>
      rw [List.cons_append, tokenLinesFrom, tokenLinesFrom]
      by_cases hts : ts = []
      · subst hts
        obtain rfl : t = last := Option.some.inj hlast
        rw [if_pos hends, if_pos hends, List.nil_append, tokenLinesFrom_eq, tokenLinesFrom]
        exact congrArg _ (congrFun List.modifyHead_id (tokenLines ts'))
      · obtain ⟨u, us, rfl⟩ := List.exists_cons_of_ne_nil hts
        rw [List.getLast?_cons_cons] at hlast
        rw [ih hlast, ih hlast]
        split <;> rfl
  exact hfrom [] []

theorem tokenLines_map_shift (n : Nat) (ts : List Token) :
    tokenLines (ts.map (Token.shift n)) = (tokenLines ts).map (TokenLine.shift n) := by
  have hfrom (body : List Token) (done : List TokenLine) :
      tokenLinesFrom (body.map (Token.shift n)) (done.map (TokenLine.shift n))
          (ts.map (Token.shift n)) =
        (tokenLinesFrom body done ts).map (TokenLine.shift n) := by
    induction ts generalizing body done with
    | nil => exact List.map_reverse.symm
    | cons t ts ih =>
      rw [List.map_cons, tokenLinesFrom, tokenLinesFrom]
      by_cases hends : t.kind.endsLine = true
      · rw [if_pos hends, if_pos (show (t.shift n).kind.endsLine = true from hends), ← ih,
          List.map_cons, TokenLine.shift]
        dsimp only
        rw [List.map_reverse]
        rfl
      · rw [if_neg hends, if_neg (show ¬(t.shift n).kind.endsLine = true from hends), ← ih]
        rfl
  exact hfrom [] []

/-! ### Reading lines wherever they stand -/

/-- Two tokens that differ at most in where they stand. -/
structure Token.Alike (R : Span → Span → Prop) (t t' : Token) : Prop where
  kind : t'.kind = t.kind
  text : t'.text = t.text
  span : R t.span t'.span

/-- Two statements that differ at most in where they stand. -/
structure LocatedStatement.Alike (R : Span → Span → Prop) (s s' : LocatedStatement) : Prop where
  statement : s'.statement = s.statement
  span : R s.span s'.span

/-- Two results, which are both in order or have the same fault. -/
inductive Agree {α β : Type} (R : Span → Span → Prop) (S : α → β → Prop) :
    Except Located α → Except Located β → Prop where
  | ok {a : α} {b : β} : S a b → Agree R S (.ok a) (.ok b)
  | error {fault : AsmFault} {s s' : Span} : R s s' →
    Agree R S (.error ⟨fault, s⟩) (.error ⟨fault, s'⟩)

/-- Two lines of tokens that differ at most in where they stand, in sources of `size` and `size'`
bytes. -/
structure TokenLine.Alike (R : Span → Span → Prop) (size size' : Nat) (l l' : TokenLine) :
    Prop where
  body : List.Forall₂ (Token.Alike R) l.body l'.body
  stop : l.stop.Alike R l'.stop
  /-- Both end with the end of the source or neither does. -/
  atEnd : l.stop.kind = .endOfFile → (l.stop.span.stop = size ↔ l'.stop.span.stop = size')

section
variable {α β γ δ : Type} {R : Span → Span → Prop} {S : α → β → Prop} {T : γ → δ → Prop}
  {u : Except Located α} {u' : Except Located β} {stop stop' : Token}

theorem Agree.bind {f : α → Except Located γ} {f' : β → Except Located δ} (h : Agree R S u u')
    (hf : ∀ a b, S a b → Agree R T (f a) (f' b)) : Agree R T (u >>= f) (u' >>= f') := by
  cases h with
  | ok hab => exact hf _ _ hab
  | error hspan => exact .error hspan

theorem Agree.map_some (h : Agree R S u u') :
    Agree R (Option.Rel S) (some <$> u) (some <$> u') := by
  cases h with
  | ok hab => exact .ok (.some hab)
  | error hspan => exact .error hspan

namespace TokenLine

theorem firstOf_alike (hstop : stop.Alike R stop') (h : List.Forall₂ (Token.Alike R) ts ts') :
    (firstOf stop ts).Alike R (firstOf stop' ts') := by
  cases h with
  | nil => exact hstop
  | cons ht _ => exact ht

theorem expectEnd_alike (h : List.Forall₂ (Token.Alike R) ts ts') :
    Agree R Eq (expectEnd ts) (expectEnd ts') := by
  cases h with
  | nil => exact .ok rfl
  | cons ht _ => exact .error ht.span

theorem readOperand_alike (h : t.Alike R t') : Agree R Eq (readOperand t) (readOperand t') := by
  unfold readOperand
  rw [h.kind, h.text]
  split
  · exact .ok rfl
  · dsimp only
    split
    · exact .ok rfl
    · exact .error h.span
  · exact .error h.span

theorem readLoad_alike (hstop : stop.Alike R stop') (h : List.Forall₂ (Token.Alike R) ts ts') :
    Agree R (LocatedStatement.Alike R) (readLoad stop ts) (readLoad stop' ts') := by
  have hfirst := firstOf_alike hstop h
  refine (readOperand_alike hfirst).bind fun operand operand' hoperand => ?_
  subst hoperand
  exact (expectEnd_alike (List.forall₂_drop 1 h)).bind fun _ _ _ => .ok ⟨rfl, hfirst.span⟩

theorem readLabel_alike (hstop : stop.Alike R stop') (h : List.Forall₂ (Token.Alike R) ts ts') :
    Agree R (LocatedStatement.Alike R) (readLabel stop ts) (readLabel stop' ts') := by
  have hname := firstOf_alike hstop h
  have hclose := firstOf_alike hstop (List.forall₂_drop 1 h)
  unfold readLabel
  dsimp only
  rw [hname.kind, hname.text, hclose.kind]
  by_cases hsymbol : (firstOf stop ts).kind = .symbol
  · by_cases hparen : (firstOf stop (ts.drop 1)).kind = .rightParen
    · rw [if_neg (not_not_intro hsymbol), if_neg (not_not_intro hparen),
        if_neg (not_not_intro hsymbol), if_neg (not_not_intro hparen)]
      exact (expectEnd_alike (List.forall₂_drop 2 h)).bind fun _ _ _ => .ok ⟨rfl, hname.span⟩
    · rw [if_neg (not_not_intro hsymbol), if_pos hparen, if_neg (not_not_intro hsymbol),
        if_pos hparen]
      exact .error hclose.span
  · rw [if_pos hsymbol, if_pos hsymbol]
    exact .error hname.span

theorem find?_alike (h : List.Forall₂ (Token.Alike R) ts ts') (p : TokenKind → Bool) :
    Option.Rel (Token.Alike R) (ts.find? fun x => p x.kind) (ts'.find? fun x => p x.kind) := by
  induction h with
  | nil => exact .none
  | @cons t t' ts ts' ht _ ih =>
    rw [List.find?_cons, List.find?_cons, ht.kind]
    split
    · exact .some ht
    · exact ih

theorem flatMap_text_alike (h : List.Forall₂ (Token.Alike R) ts ts') :
    ts'.flatMap (fun x => x.text.toList) = ts.flatMap fun x => x.text.toList := by
  induction h with
  | nil => rfl
  | cons ht _ ih => rw [List.flatMap_cons, List.flatMap_cons, ht.text, ih]

theorem getLastD_alike (h : List.Forall₂ (Token.Alike R) ts ts') (ht : t.Alike R t') :
    (ts.getLastD t).Alike R (ts'.getLastD t') := by
  induction h generalizing t t' with
  | nil => exact ht
  | cons hu _ ih =>
    rw [List.getLastD_cons, List.getLastD_cons]
    exact ih hu

theorem readCompute_alike (hR : ∀ s s' u u', R s s' → R u u' → R (s.merge u) (s'.merge u'))
    (ht : t.Alike R t') (h : List.Forall₂ (Token.Alike R) ts ts') :
    Agree R (LocatedStatement.Alike R) (readCompute t ts) (readCompute t' ts') := by
  have hall : List.Forall₂ (Token.Alike R) (t :: ts) (t' :: ts') := .cons ht h
  have hfind := find?_alike hall fun kind => !kind.isInstructionPart
  have hwhole := hR _ _ _ _ ht.span (getLastD_alike hall ht).span
  unfold readCompute
  rw [flatMap_text_alike hall]
  generalize (t :: ts).find? (fun x => !x.kind.isInstructionPart) = found at hfind
  generalize (t' :: ts').find? (fun x => !x.kind.isInstructionPart) = found' at hfind
  cases hfind with
  | @some x x' hx =>
    dsimp only
    rw [hx.kind]
    exact .error hx.span
  | none =>
    dsimp only
    split
    · exact .ok ⟨rfl, hwhole⟩
    · exact .error hwhole

/-- **What a line says does not depend on where it stands**, and neither does what is wrong with
it. -/
theorem read_alike {l l' : TokenLine}
    (hR : ∀ s s' u u', R s s' → R u u' → R (s.merge u) (s'.merge u'))
    (h : l.Alike R size size' l') :
    Agree R (Option.Rel (LocatedStatement.Alike R)) (l.read size) (l'.read size') := by
  obtain ⟨body, stop⟩ := l
  obtain ⟨body', stop'⟩ := l'
  obtain ⟨hbody, hstop, hend⟩ := h
  cases hbody with
  | nil =>
    unfold read
    dsimp only at hstop hend ⊢
    rw [hstop.kind]
    by_cases hnul : stop.kind = .endOfFile ∧ stop.span.stop ≠ size
    · rw [if_pos hnul, if_pos ⟨hnul.1, fun h => hnul.2 ((hend hnul.1).mpr h)⟩]
      exact .error hstop.span
    · rw [if_neg hnul, if_neg fun h => hnul ⟨h.1, fun h' => h.2 ((hend h.1).mp h')⟩]
      exact .ok .none
  | @cons t t' ts ts' ht hts =>
    rw [read_cons, read_cons, ht.kind, ht.text]
    refine Agree.map_some ?_
    generalize t.kind = kind
    cases kind with
    | «at» => exact readLoad_alike hstop hts
    | leftParen => exact readLabel_alike hstop hts
    | unknown => exact .error ht.span
    | rightParen | equals | semicolon | plus | minus | bang | amp | pipe | newline | symbol | number
      | endOfFile =>
      exact readCompute_alike hR ht hts

end TokenLine

namespace Program

variable {p : Program} {ls ls' : List TokenLine}

theorem add_alike {s s' : LocatedStatement} (h : s.Alike R s') :
    Agree R Eq (p.add s) (p.add s') := by
  obtain ⟨instructions, symbols⟩ := p
  obtain ⟨statement, span⟩ := s
  obtain ⟨statement', span'⟩ := s'
  obtain ⟨rfl, hspan⟩ := h
  cases statement' with
  | label name =>
    unfold add
    dsimp only
    split
    · exact .error hspan
    · exact .ok rfl
  | load | compute => exact .ok rfl

/-- The first pass over lines does not depend on where they stand. -/
theorem addLines_alike (hR : ∀ s s' u u', R s s' → R u u' → R (s.merge u) (s'.merge u'))
    (h : List.Forall₂ (TokenLine.Alike R size size') ls ls') :
    Agree R Eq (addLines size p ls) (addLines size' p ls') := by
  induction h generalizing p with
  | nil => exact .ok rfl
  | @cons l l' ls ls' hl _ ih =>
    have hread := TokenLine.read_alike hR hl
    rw [addLines, addLines]
    generalize l.read size = result at hread
    generalize l'.read size' = result' at hread
    cases hread with
    | error hspan => exact .error hspan
    | ok hstatement =>
      cases hstatement with
      | none => exact ih
      | some hs =>
        have hadd := add_alike (p := p) hs
        dsimp only
        generalize p.add _ = added at hadd ⊢
        generalize p.add _ = added' at hadd ⊢
        cases hadd with
        | error hspan => exact .error hspan
        | ok heq =>
          subst heq
          exact ih

theorem addLines_append :
    addLines size p (ls ++ ls') = addLines size p ls >>= fun p => addLines size p ls' := by
  induction ls generalizing p with
  | nil => rfl
  | cons l ls ih =>
    rw [List.cons_append, addLines, addLines]
    split
    · rfl
    · exact ih
    · split
      · rfl
      · exact ih

end Program

end

/-! ### The first pass over parts -/

/-- A stretch in front of an offset, which is the same in a longer source. -/
def Inside (bound : Nat) (s s' : Span) : Prop := s' = s ∧ s.index < bound

theorem inside_merge (bound : Nat) : ∀ s s' u u' : Span, Inside bound s s' → Inside bound u u' →
    Inside bound (s.merge u) (s'.merge u') := by
  rintro s _ u _ ⟨rfl, hs⟩ ⟨rfl, -⟩
  exact ⟨rfl, Nat.lt_of_le_of_lt (Nat.min_le_left _ _) hs⟩

theorem shift_merge (n : Nat) : ∀ s s' u u' : Span, s' = s.shift n → u' = u.shift n →
    s'.merge u' = (s.merge u).shift n := by
  rintro s _ u _ rfl rfl
  have hstop (s : Span) : (s.shift n).stop = s.stop + n := Nat.add_right_comm _ _ _
  unfold Span.merge
  rw [hstop, hstop]
  show Span.mk (min (s.index + n) (u.index + n))
    (max (s.stop + n) (u.stop + n) - min (s.index + n) (u.index + n)) = _
  rw [Nat.add_min_add_right, Nat.add_max_add_right, Nat.add_sub_add_right]
  rfl

/-- The tokens of lines are among those that have been divided into lines. -/
theorem mem_of_mem_tokenLines {l : TokenLine} (h : l ∈ tokenLines ts) :
    (∀ t ∈ l.body, t ∈ ts) ∧ l.stop ∈ ts := by
  have hfrom (P : Token → Prop) (ts body : List Token) (done : List TokenLine)
      (hbody : ∀ t ∈ body, P t)
      (hdone : ∀ l ∈ done, (∀ t ∈ l.body, P t) ∧ P l.stop) (hts : ∀ t ∈ ts, P t) :
      ∀ l ∈ tokenLinesFrom body done ts, (∀ t ∈ l.body, P t) ∧ P l.stop := by
    induction ts generalizing body done with
    | nil => exact fun l hl => hdone l (List.mem_reverse.mp hl)
    | cons t ts ih =>
      obtain ⟨ht, hts⟩ := List.forall_mem_cons.mp hts
      rw [tokenLinesFrom]
      split
      · refine ih [] _ (fun t ht => absurd ht List.not_mem_nil)
          (List.forall_mem_cons.mpr ⟨⟨?_, ht⟩, hdone⟩) hts
        exact fun t ht => hbody t (List.mem_reverse.mp ht)
      · exact ih _ done (List.forall_mem_cons.mpr ⟨ht, hbody⟩) hdone hts
  exact hfrom (· ∈ ts) ts [] [] (fun t ht => absurd ht List.not_mem_nil)
    (fun l hl => absurd hl List.not_mem_nil) (fun t ht => ht) l h

theorem alike_of_tiles (h : Tiles 0 x ts) (size : Nat) (hsize : byteLength x ≤ size) :
    List.Forall₂ (TokenLine.Alike (Inside (byteLength x)) size (byteLength x)) (tokenLines ts)
      (tokenLines ts) := by
  have hinside := h.inside
  have hnul := h.nul
  rw [Nat.zero_add] at hinside hnul
  refine List.forall₂_same.mpr fun l hl => ?_
  obtain ⟨hbody, hstop⟩ := mem_of_mem_tokenLines hl
  have halike (t : Token) (ht : t ∈ ts) : t.Alike (Inside (byteLength x)) t :=
    ⟨rfl, rfl, rfl, hinside t ht⟩
  refine ⟨List.forall₂_same.mpr fun t ht => halike t (hbody t ht), halike _ hstop, fun hkind => ?_⟩
  have hless := hnul _ hstop hkind
  exact iff_of_false (by omega) (by omega)

theorem alike_shift (n size : Nat) (ts : List Token) :
    List.Forall₂ (TokenLine.Alike (fun s s' => s' = s.shift n) size (size + n)) (tokenLines ts)
      (tokenLines (ts.map (Token.shift n))) := by
  have halike (t : Token) : t.Alike (fun s s' => s' = s.shift n) (t.shift n) := ⟨rfl, rfl, rfl⟩
  rw [tokenLines_map_shift, List.forall₂_map_right_iff]
  refine List.forall₂_same.mpr fun l _ => ⟨?_, halike l.stop, fun _ => ?_⟩
  · exact List.forall₂_map_right_iff.mpr (List.forall₂_same.mpr fun t _ => halike t)
  · have hstop : (l.stop.shift n).span.stop = l.stop.span.stop + n := Nat.add_right_comm _ _ _
    show _ ↔ (l.stop.shift n).span.stop = size + n
    rw [hstop, Nat.add_right_cancel_iff]

/-- The fault, where `n` bytes are put in front of the source. -/
def Located.shift (n : Nat) (e : Located) : Located := { e with span := e.span.shift n }

namespace Program

variable {p : Program}

/-- The first pass over a text goes on from a program. -/
def addText (p : Program) (text : List Char) : Except Located Program :=
  addLines (byteLength text) p (tokenLines (Cursor.tokensFrom [] ⟨text, 0⟩))

theorem addLines_atEnd (offset : Nat) :
    addLines offset p [⟨[], tokenAt offset .endOfFile []⟩] = .ok p := by
  have hread : (⟨[], tokenAt offset .endOfFile []⟩ : TokenLine).read offset = .ok none :=
    if_neg fun h => h.2 rfl
  rw [addLines, hread]
  rfl

theorem addText_nil : p.addText [] = .ok p := by
  have htokens : Cursor.tokensFrom [] ⟨[], 0⟩ = [tokenAt 0 .endOfFile []] :=
    Cursor.tokensFrom_of_tiling (.stop (.blanks fun c hc => absurd hc List.not_mem_nil))
  rw [addText, htokens]
  exact addLines_atEnd 0

/-- The end of a part is no line of its own. -/
theorem addText_of_tiles (h : Tiles 0 x ts) :
    p.addText x = addLines (byteLength x) p (tokenLines ts) := by
  have hstop : Tiling (0 + byteLength x) [] [tokenAt (0 + byteLength x) .endOfFile []] :=
    .stop (.blanks fun c hc => absurd hc List.not_mem_nil)
  have htokens := Cursor.tokensFrom_of_tiling (h.tiling hstop)
  rw [List.append_nil, Nat.zero_add] at htokens
  rw [addText, htokens, tokenLines_append_of_ends h.ends, addLines_append, tokenLines_ending rfl]
  cases addLines (byteLength x) p (tokenLines ts) with
  | error e => rfl
  | ok p' => exact addLines_atEnd _

/-- What is reported of a part is in the part. -/
theorem inside_of_addText {e : Located} (hx : x.getLast? = some '\n') (h : p.addText x = .error e) :
    e.span.index < byteLength x := by
  obtain ⟨ts, hts⟩ := exists_tiles hx 0
  have hagree := addLines_alike (p := p) (inside_merge _) (alike_of_tiles hts _ (Nat.le_refl _))
  rw [← addText_of_tiles hts, h] at hagree
  cases hagree with
  | error hspan => exact hspan.2

/-- **The first pass over a source is the first pass over its parts**, with the offsets of the
parts. -/
theorem addText_append (hx : x.getLast? = some '\n') (y : List Char) : p.addText (x ++ y) =
    p.addText x >>= fun p => (p.addText y).mapError (Located.shift (byteLength x)) := by
  obtain ⟨ts, hts⟩ := exists_tiles hx 0
  obtain ⟨ts', hts'⟩ := exists_tiling 0 y
  have htokens := Cursor.tokensFrom_of_tiling (hts.tiling (hts'.shift (byteLength x)))
  have hsize : byteLength (x ++ y) = byteLength y + byteLength x := by
    rw [byteLength_append, Nat.add_comm]
  have hfirst : addLines (byteLength (x ++ y)) p (tokenLines ts) = p.addText x := by
    have hagree :=
      addLines_alike (p := p) (inside_merge _) (alike_of_tiles hts (byteLength (x ++ y)) (by omega))
    rw [addText_of_tiles hts]
    generalize addLines (byteLength (x ++ y)) p (tokenLines ts) = result at hagree
    generalize addLines (byteLength x) p (tokenLines ts) = result' at hagree
    cases hagree with
    | ok heq => rw [heq]
    | error hspan => rw [hspan.1]
  have hsecond (p : Program) : addLines (byteLength (x ++ y)) p
      (tokenLines (ts'.map (Token.shift (byteLength x)))) =
      (p.addText y).mapError (Located.shift (byteLength x)) := by
    have hagree :=
      addLines_alike (p := p) (shift_merge _) (alike_shift (byteLength x) (byteLength y) ts')
    rw [hsize, addText, Cursor.tokensFrom_of_tiling hts']
    generalize addLines (byteLength y) p (tokenLines ts') = result at hagree
    generalize addLines (byteLength y + byteLength x) p _ = result' at hagree
    cases hagree with
    | ok heq =>
      subst heq
      rfl
    | error hspan =>
      subst hspan
      rfl
  rw [addText, htokens, tokenLines_append_of_ends hts.ends, addLines_append, hfirst]
  exact congrArg (p.addText x >>= ·) (funext hsecond)

end Program

/-! ### What is reported -/

/-- An error without the number of its line. -/
def AsmError.unnumbered (e : AsmError) : AsmError := { e with place := { e.place with line := 0 } }

/-- The number of the line stands in front of everything else that a message says. -/
theorem AsmError.message_eq (e : AsmError) :
    e.message = toString e.place.line
      ++ (":" ++ toString e.place.column ++ ": " ++ e.fault.message ++ "\n"
      ++ "    " ++ e.place.lineText ++ "\n"
      ++ "    " ++ String.ofList (List.replicate (e.place.column - 1) ' ') ++ "^") := by
  unfold AsmError.message Place.report
  simp only [String.append_assoc]

/-- Errors that agree apart from the numbers of their lines have messages that agree apart from
these numbers. -/
theorem AsmError.messages_of_unnumbered_eq {e e' : AsmError} (h : e.unnumbered = e'.unnumbered) :
    ∃ rest, e.message = toString e.place.line ++ rest ∧
      e'.message = toString e'.place.line ++ rest := by
  obtain ⟨fault, line, column, lineText⟩ := e
  obtain ⟨fault', line', column', lineText'⟩ := e'
  cases h
  exact ⟨_, message_eq _, message_eq _⟩

namespace Program

variable {p : Program}

/-- The first pass over a text goes on from a program.  Errors have no numbers of lines. -/
def glance (p : Program) (text : List Char) : Except AsmError Program :=
  (p.addText text).mapError fun e => AsmError.unnumbered ⟨e.fault, .ofSpan text e.span⟩

/-- **The first pass over parts**, with all that is reported but the numbers of lines. -/
theorem glance_append (hx : x.getLast? = some '\n') (hy : BeginsLine y) :
    p.glance (x ++ y) = p.glance x >>= fun p => p.glance y := by
  unfold glance
  rw [addText_append hx]
  cases hfirst : p.addText x with
  | error e =>
    have hplace := Place.ofSpan_append hx hy (inside_of_addText hx hfirst)
    show Except.error (AsmError.unnumbered ⟨e.fault, .ofSpan (x ++ y) e.span⟩) = _
    rw [hplace]
    rfl
  | ok p' =>
    cases hsecond : p'.addText y with
    | ok p'' =>
      show ((p'.addText y).mapError _).mapError _ = (p'.addText y).mapError _
      rw [hsecond]
      rfl
    | error e =>
      have hne : y ≠ [] := by
        rintro rfl
        rw [addText_nil] at hsecond
        cases hsecond
      obtain ⟨hcolumn, htext⟩ := Place.ofSpan_shift hx hy hne e.span
      show ((p'.addText y).mapError _).mapError _ = (p'.addText y).mapError _
      rw [hsecond]
      show Except.error
        (AsmError.unnumbered ⟨e.fault, .ofSpan (x ++ y) (e.span.shift (byteLength x))⟩) =
        Except.error (AsmError.unnumbered ⟨e.fault, .ofSpan y e.span⟩)
      unfold AsmError.unnumbered
      dsimp only
      rw [hcolumn, htext]

end Program

/-- What comes of a source, apart from the number of a line that is in error. -/
theorem unnumbered_assemble (source : String) : (assemble source).mapError AsmError.unnumbered =
    (({} : Program).glance source.toList).map Program.resolve := by
  have hsource : Program.ofSource source = ({} : Program).addText source.toList := by
    unfold Program.ofSource Program.addText
    rw [byteLength_toList]
    rfl
  unfold assemble assembleWithRecords Program.glance
  rw [hsource]
  cases ({} : Program).addText source.toList <;> rfl

end JackToolchain.Hack
