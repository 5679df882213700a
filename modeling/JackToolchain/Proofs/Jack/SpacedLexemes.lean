import JackToolchain.Proofs.Jack.Tokenization
import JackToolchain.Proofs.Text.Lines

/-!
# Lexemes with blanks between them

The texts of the tokens of a source, written one behind the other with blanks between neighbours,
are a source with the same lexemes (`tokenize_spaced`).  A lexeme is one by itself, whatever stood
behind it (`Spells.alone`), and it stays one in front of a blank (`Spells.before_blank`): there a
slash begins no comment and a word does not go on, and the contents of a string constant are between
its quotes.
-/

namespace JackToolchain.Jack

variable {c : Char} {cs rest text gap : List Char} {p : Position} {kind : Kind} {items : List Item}

/-! ### Blanks behind a lexeme -/

theorem IsWordlike.of_blank (h : Text.isBlank c = true) : ¬IsWordlike c := by
  intro hc
  rw [hc.not_blank] at h
  cases h

/-- **A blank ends every lexeme.** -/
theorem Spells.before_blank (h : Spells [] text kind)
    (hrest : ∀ c ∈ rest.head?, Text.isBlank c = true) : Spells rest text kind := by
  have hrun {word : List Char} (h : Run [] word) : Run rest word :=
    ⟨h.ne_nil, h.wordlike, fun c hc => IsWordlike.of_blank (hrest c hc)⟩
  cases h with
  | symbol s _ =>
    refine .symbol s fun _ c hc => ⟨?_, ?_⟩
    · rintro rfl
      exact absurd (hrest _ hc) (by decide)
    · rintro rfl
      exact absurd (hrest _ hc) (by decide)
  | string hquote hline => exact .string hquote hline
  | keyword k h => exact .keyword k (hrun h)
  | int h hdigits hvalue => exact .int (hrun h) hdigits hvalue
  | ident h hident hreserved => exact .ident (hrun h) hident hreserved

theorem Gap.of_allBlank (h : Text.AllBlank gap) : Gap rest gap := by
  induction gap with
  | nil => exact .nil
  | cons c gap ih =>
    obtain ⟨hc, hgap⟩ := List.forall_mem_cons.mp h
    have hpiece : Trivium (gap ++ rest) [c] := .blank hc
    exact .cons hpiece (ih hgap)

/-! ### Lexemes in a row -/

/-- The texts of tokens.  The end of the source has none. -/
def fragments (tokens : List Token) : List (List Char) :=
  (tokens.filter (·.kind != .eos)).map (·.text.toList)

/-- Texts one behind the other, with blanks between neighbours. -/
inductive Spaced : List (List Char) → List Char → Prop where
  | nil : Spaced [] []
  | singleton (text : List Char) : Spaced [text] text
  | cons {text gap next rest : List Char} {texts : List (List Char)} : gap ≠ [] →
      Text.AllBlank gap →
      Spaced (next :: texts) rest → Spaced (text :: next :: texts) (text ++ (gap ++ rest))

/-- Lexemes in a row are laid out as tokens.  The induction is on the lexemes; the blanks in front
of the first one are those behind the lexeme before. -/
theorem layout_of_spaced {lexemes : List Lexeme}
    (hspells : ∀ l ∈ lexemes, Spells [] l.text.toList l.kind) (hgap : Text.AllBlank gap)
    (h : Spaced (lexemes.map (·.text.toList)) cs) (p : Position) :
    ∃ tokens : List Token, Layout p (gap ++ cs) (tokens.map .ok) ∧
      tokens.map Token.toLexeme = lexemes ++ [⟨.eos, ""⟩] := by
  induction lexemes generalizing gap cs p with
  | nil =>
    cases h with
    | nil =>
      rw [List.append_nil]
      exact ⟨[endToken (p.after gap)], .eos (Gap.of_allBlank hgap), rfl⟩
  | cons l lexemes ih =>
    obtain ⟨hl, hlexemes⟩ := List.forall_mem_cons.mp hspells
    have hlexeme (p : Position) : (tokenAt p l.kind l.text.toList).toLexeme = l := by
      show Lexeme.mk l.kind (String.ofList l.text.toList) = l
      rw [String.ofList_toList]
    generalize htexts : (l :: lexemes).map (·.text.toList) = texts at h
    cases h with
    | nil => cases htexts
    | singleton text =>
      obtain ⟨rfl, hnil⟩ := List.cons.inj htexts
      obtain rfl := List.map_eq_nil_iff.mp hnil
      have hlast : Layout p (gap ++ (l.text.toList ++ [])) _ :=
        .token (Gap.of_allBlank hgap) hl (.eos .nil)
      rw [List.append_nil] at hlast
      exact ⟨[_, _], hlast, by rw [List.map_cons, hlexeme]; rfl⟩
    | @cons text blanks next rest texts hne hblanks hrest =>
      obtain ⟨rfl, hmap⟩ := List.cons.inj htexts
      rw [← hmap] at hrest
      obtain ⟨tokens, hlayout, htokens⟩ :=
        ih hlexemes hblanks hrest ((p.after gap).after l.text.toList)
      have hblank : ∀ c ∈ (blanks ++ rest).head?, Text.isBlank c = true := by
        intro c hc
        rw [List.head?_append_of_ne_nil _ hne] at hc
        exact hblanks c (List.mem_of_head? hc)
      exact ⟨_ :: tokens, .token (Gap.of_allBlank hgap) (hl.before_blank hblank) hlayout,
        by rw [List.map_cons, hlexeme, htokens]; rfl⟩

/-! ### Sources -/

/-- Tokens that are laid out are lexemes by themselves, and at last the end of the source. -/
theorem lexemes_of_layout {tokens : List Token} (h : Layout p cs items)
    (hitems : items = tokens.map .ok) :
    ∃ lexemes : List Lexeme, tokens.map Token.toLexeme = lexemes ++ [⟨.eos, ""⟩] ∧
      fragments tokens = lexemes.map (·.text.toList) ∧ ∀ l ∈ lexemes, Spells
        [] l.text.toList l.kind := by
  induction h generalizing tokens with
  | eos =>
    obtain ⟨t, rfl, ht⟩ := List.map_eq_singleton_iff.mp hitems.symm
    obtain rfl := Except.ok.inj ht
    exact ⟨[], rfl, rfl, List.forall_mem_nil _⟩
  | @token p gap text rest kind items _ hspells _ ih =>
    obtain ⟨t, ts, rfl, ht, hts⟩ := List.map_eq_cons_iff.mp hitems.symm
    obtain rfl := Except.ok.inj ht
    obtain ⟨lexemes, hlexemes, hfragments, hall⟩ := ih hts.symm
    have hnotEnd : ((tokenAt (p.after gap) kind text).kind != .eos) = true :=
      bne_iff_ne.mpr hspells.kind_ne_eos
    have htext : (tokenAt (p.after gap) kind text).text.toList = text := String.toList_ofList
    refine ⟨(tokenAt (p.after gap) kind text).toLexeme :: lexemes, ?_, ?_, ?_⟩
    · rw [List.map_cons, hlexemes, List.cons_append]
    · unfold fragments at hfragments ⊢
      rw [List.filter_cons, if_pos hnotEnd, List.map_cons, hfragments, List.map_cons]
    · refine List.forall_mem_cons.mpr ⟨?_, hall⟩
      rw [htext]
      exact hspells.alone
  | error =>
    obtain ⟨t, -, ht⟩ := List.map_eq_singleton_iff.mp hitems.symm
    cases ht

/-- **Tokens that are printed are read again.**  The texts of the tokens of a source, with blanks
between neighbours, are a source with the same kinds and texts, and with tokens that stand in it. -/
theorem tokenize_spaced {source text : String} {tokens : List Token}
    (h : tokenize source = .ok tokens) (htext : Spaced (fragments tokens) text.toList) :
    ∃ tokens', tokenize text = .ok tokens' ∧
      tokens'.map Token.toLexeme = tokens.map Token.toLexeme ∧ ∀ t ∈ tokens', t.StandsIn text := by
  obtain ⟨items, hlayout⟩ := exists_layout .origin source.toList
  have hitems : (Cursor.ofSource source).items = items := items_of_layout hlayout
  obtain ⟨lexemes, hlexemes, hfragments, hspells⟩ :=
    lexemes_of_layout hlayout (hitems.symm.trans (tokenize_eq_ok_iff.mp h))
  rw [hfragments] at htext
  have hnoGap : Text.AllBlank [] := List.forall_mem_nil _
  obtain ⟨tokens', hlayout', hlexemes'⟩ := layout_of_spaced hspells hnoGap htext .origin
  have hstands := standsIn_of_layout [] hlayout'
  rw [List.nil_append, List.nil_append, String.ofList_toList] at hstands
  refine ⟨tokens', tokenize_eq_ok_iff.mpr (items_of_layout hlayout'), hlexemes'.trans hlexemes.symm,
    fun t ht => ?_⟩
  exact hstands t (List.mem_filterMap.mpr ⟨.ok t, List.mem_map_of_mem ht, rfl⟩)

/-- A source without a blank. -/
def tightSource : String := "x/007\"//\""

/-- Its tokens with blanks between them. -/
def looseSource : String := "x /\n007\t \"//\""

theorem tokenize_spaced_loose : ∃ tokens, tokenize tightSource = .ok tokens ∧
    Spaced (fragments tokens) looseSource.toList ∧ ∃ tokens', tokenize looseSource = .ok tokens' ∧
      tokens'.map Token.toLexeme = tokens.map Token.toLexeme ∧
      ∀ t ∈ tokens', t.StandsIn looseSource := by
  have hfragments : (tokenize tightSource).map fragments = .ok [['x'], ['/'], "007".toList,
      "\"//\"".toList] := by
    decide +kernel
  have htext : looseSource.toList =
      ['x'] ++ ([' '] ++ (['/'] ++ (['\n'] ++ ("007".toList ++ (['\t', ' '] ++
      "\"//\"".toList))))) := by
    decide
  cases h : tokenize tightSource with
  | error e =>
    rw [h] at hfragments
    cases hfragments
  | ok tokens =>
    rw [h] at hfragments
    have hspaced : Spaced (fragments tokens) looseSource.toList := by
      rw [Except.ok.inj hfragments, htext]
      exact .cons (by decide) (by decide)
        (.cons (by decide) (by decide) (.cons (by decide) (by decide) (.singleton _)))
    exact ⟨tokens, rfl, hspaced, tokenize_spaced h hspaced⟩

end JackToolchain.Jack
