import JackToolchain.Proofs.Jack.LayoutItems

/-!
# The lexer computes the layout of a source

A source has one layout, and its items are what the lexer finds.  From the layout the tokens have
what one asks of tokens: they come in order and do not overlap, a span covers the text of its token,
and the text decides the kind (`Token.KindByText`), since what a text spells by itself it spells
wherever it stands.
-/

namespace JackToolchain.Jack

variable {c : Char} {cs rest text word : List Char} {p : Position} {kind : Kind}

/-! ### Spellings -/

/-- A lexeme is one by itself too. -/
theorem Spells.alone (h : Spells rest text kind) : Spells [] text kind := by
  have hrun {word : List Char} (h : Run rest word) : Run [] word := ⟨h.ne_nil, h.wordlike, nofun⟩
  cases h with
  | symbol s _ => exact .symbol s fun _ => nofun
  | string hquote hline => exact .string hquote hline
  | keyword k h => exact .keyword k (hrun h)
  | int h hdigits hvalue => exact .int (hrun h) hdigits hvalue
  | ident h hident hreserved => exact .ident (hrun h) hident hreserved

/-- Equal texts spell the same. -/
theorem Spells.kind_eq {kind' : Kind} (h : Spells rest text kind) (h' : Spells [] text kind') :
    kind = kind' := by
  have hnext := next_of_spells (p := .origin) h.alone
  rw [next_of_spells h', Prod.mk.injEq, Except.ok.injEq] at hnext
  exact (congrArg (fun t => t.kind) hnext.1).symm

theorem range_of_isAlphanum (h : c.isAlphanum = true) :
    (48 ≤ c.toNat ∧ c.toNat ≤ 57) ∨ (65 ≤ c.toNat ∧ c.toNat ≤ 90) ∨
      (97 ≤ c.toNat ∧ c.toNat ≤ 122) := by
  unfold Char.isAlphanum Char.isAlpha Char.isUpper Char.isLower Char.isDigit at h
  simp only [Bool.or_eq_true, Bool.and_eq_true, decide_eq_true_eq, UInt32.le_iff_toNat_le,
    ge_iff_le] at h
  have hc : c.toNat = c.val.toNat := rfl
  have hupper : 'A'.val.toNat = 65 ∧ 'Z'.val.toNat = 90 := by decide
  have hlower : 'a'.val.toNat = 97 ∧ 'z'.val.toNat = 122 := by decide
  have hdigit : '0'.val.toNat = 48 ∧ '9'.val.toNat = 57 := by decide
  omega

theorem isWordlike_of_isAlphanum (h : c.isAlphanum = true) : IsWordlike c := by
  have hrange := range_of_isAlphanum h
  refine ⟨?_, ?_, fun s => ?_⟩
  · simp only [Text.isBlank, Bool.or_eq_false_iff, Bool.and_eq_false_iff, decide_eq_false_iff_not,
      beq_eq_false_iff_ne]
    omega
  · rintro rfl
    exact absurd hrange (by decide)
  · rintro rfl
    revert hrange
    cases s <;> decide

theorem isWordlike_underscore : IsWordlike '_' := by
  refine ⟨by decide, by decide, fun s => ?_⟩
  cases s <;> decide

theorem isAlphanum_of_isDigit (h : c.isDigit = true) : c.isAlphanum = true := by
  rw [Char.isAlphanum, h, Bool.or_true]

theorem run_of_allDigits (hne : word ≠ []) (h : AllDigits word) : Run [] word :=
  ⟨hne, fun c hc => isWordlike_of_isAlphanum (isAlphanum_of_isDigit (h c hc)), nofun⟩

theorem run_of_isIdentifier (h : IsIdentifier word) : Run [] word := by
  cases word with
  | nil => exact absurd h id
  | cons c cs =>
    refine ⟨List.cons_ne_nil c cs, List.forall_mem_cons.mpr ⟨?_, fun d hd => ?_⟩, nofun⟩
    · rcases h.1 with hc | rfl
      · exact isWordlike_of_isAlphanum (by rw [Char.isAlphanum, hc, Bool.true_or])
      · exact isWordlike_underscore
    · rcases h.2 d hd with hd | rfl
      · exact isWordlike_of_isAlphanum hd
      · exact isWordlike_underscore

theorem Spells.ne_nil (h : Spells rest text kind) : text ≠ [] := by
  cases h with
  | symbol | string => exact List.cons_ne_nil _ _
  | keyword _ h | int h | ident h => exact h.ne_nil

/-- Only a string constant begins with a quote. -/
theorem Spells.eq_string (h : Spells rest text kind) (hquote : text.head? = some '"') :
    kind = .string := by
  have hrun {word : List Char} (h : Run rest word) (hquote : word.head? = some '"') : kind =
      .string :=
    absurd rfl (h.wordlike '"' (List.mem_of_head? hquote)).not_quote
  cases h with
  | symbol s _ =>
    revert hquote
    cases s <;> decide
  | string _ _ => rfl
  | keyword k h => exact hrun h hquote
  | int h _ _ => exact hrun h hquote
  | ident h _ _ => exact hrun h hquote

theorem ofList_eq_iff {t : String} : String.ofList text = t ↔ text = t.toList :=
  ⟨fun h => by rw [← h, String.toList_ofList], fun h => by rw [h, String.ofList_toList]⟩

theorem toList_text_symbol (s : Symbol) : s.text.toList = [s.char] := String.toList_singleton s.char

/-- **The text of a lexeme decides its kind.** -/
theorem kindByText_of_spells (h : Spells rest text kind) : (tokenAt p kind text).KindByText := by
  have htoList : (tokenAt p kind text).text.toList = text := String.toList_ofList
  -- From a kind to the text there is one case of `h`; the other way, equal texts spell the same.
  constructor
  case symbol =>
    intro s
    show kind = _ ↔ String.ofList text = _
    rw [ofList_eq_iff, toList_text_symbol]
    constructor
    · rintro rfl
      cases h
      rfl
    · rintro rfl
      exact h.kind_eq (.symbol s fun _ => nofun)
  case keyword =>
    intro k
    show kind = _ ↔ String.ofList text = _
    rw [ofList_eq_iff]
    constructor
    · rintro rfl
      generalize hkind : Kind.keyword k = kind at h
      cases h <;> cases hkind
      rfl
    · rintro rfl
      exact h.kind_eq (.keyword k (run_of_isIdentifier (isIdentifier_of_isReserved ⟨k, rfl⟩)))
  case int =>
    intro n
    rw [htoList]
    show kind = _ ↔ String.ofList text ≠ _ ∧ _
    rw [ne_eq, ofList_eq_iff]
    constructor
    · rintro rfl
      cases h with
      | int hrun hdigits hvalue => exact ⟨hrun.ne_nil, hdigits, rfl, hvalue⟩
    · rintro ⟨hne, hdigits, rfl, hvalue⟩
      exact h.kind_eq (.int (run_of_allDigits hne hdigits) hdigits hvalue)
  case ident =>
    rw [htoList]
    constructor
    · intro hkind
      cases hkind
      cases h with
      | ident _ hident hreserved => exact ⟨hident, hreserved⟩
    · rintro ⟨hident, hreserved⟩
      exact h.kind_eq (.ident (run_of_isIdentifier hident) hident hreserved)
  case string =>
    rw [htoList]
    constructor
    · intro hkind
      cases hkind
      cases h
      rfl
    · exact h.eq_string
  case eos =>
    show _ ↔ String.ofList text = _
    rw [ofList_eq_iff]
    exact ⟨fun hkind => absurd hkind h.kind_ne_eos, fun htext => absurd htext h.ne_nil⟩

theorem kindByText_endToken : (endToken p).KindByText where
  symbol s := ⟨nofun, fun h => absurd h (by cases s <;> exact of_decide_eq_false rfl)⟩
  keyword k := ⟨nofun, fun h => absurd h (by cases k <;> exact of_decide_eq_false rfl)⟩
  int _ := ⟨nofun, fun h => absurd rfl h.1⟩
  ident := ⟨nofun, fun h => absurd h.1 id⟩
  string := ⟨nofun, nofun⟩
  eos := ⟨fun _ => rfl, fun _ => rfl⟩

/-! ### Tokens of a layout -/

section Tokens

variable {items : List Item} {t : Token}

theorem kindByText_of_layout (h : Layout p cs items) : ∀ t ∈ tokensOf items, t.KindByText := by
  induction h with
  | eos => exact List.forall_mem_singleton.mpr kindByText_endToken
  | token _ hspells _ ih => exact List.forall_mem_cons.mpr ⟨kindByText_of_spells hspells, ih⟩
  | error => exact fun _ ht => absurd ht List.not_mem_nil

theorem offset_after (p : Position) (cs : List Char) :
    (p.after cs).offset = p.offset + (String.ofList cs).utf8ByteSize := by
  induction cs generalizing p with
  | nil => rfl
  | cons c cs ih =>
    have hcons : String.ofList (c :: cs) = String.singleton c ++ String.ofList cs := by
      rw [String.singleton_eq_ofList, ← String.ofList_append, List.singleton_append]
    have hadvance : (p.advance c).offset = p.offset + c.utf8Size := by
      unfold Position.advance
      split <;> rfl
    rw [hcons, String.utf8ByteSize_append,
      String.utf8ByteSize_singleton, ← Nat.add_assoc, ← hadvance]
    exact ih (p.advance c)

theorem standsIn_of_offset (before text behind : List Char) (htext : t.text = String.ofList text)
    (hstart : t.span.start = (Position.origin.after before).offset)
    (hstop : t.span.stop = (Position.origin.after (before ++ text)).offset) :
    t.StandsIn (String.ofList (before ++ (text ++ behind))) := by
  refine ⟨String.ofList before, String.ofList behind, ?_, ?_, ?_⟩
  · rw [String.ofList_append, String.ofList_append, htext, String.append_assoc]
  · rw [hstart, offset_after]
    exact Nat.zero_add _
  · rw [hstop, offset_after, htext, ← String.ofList_append]
    exact Nat.zero_add _

/-- A token stands where it has been found, whatever has been read before. -/
theorem standsIn_of_layout (before : List Char)
    (h : Layout (Position.origin.after before) cs items) :
    ∀ t ∈ tokensOf items, t.StandsIn (String.ofList (before ++ cs)) := by
  -- The induction is on the layout, and what has been read grows with each token.
  generalize hp : Position.origin.after before = p at h
  induction h generalizing before with
  | @eos p gap _ =>
    subst hp
    have hend := standsIn_of_offset (t := endToken ((Position.origin.after before).after gap))
      (before ++ gap) [] [] rfl (by rw [Position.after_append]; rfl)
      (by rw [List.append_nil, Position.after_append]; rfl)
    rw [List.append_nil, List.append_nil] at hend
    exact List.forall_mem_singleton.mpr hend
  | @token p gap text rest kind items _ _ _ ih =>
    subst hp
    have hrest := ih (before ++ gap ++ text) (by rw [Position.after_append, Position.after_append])
    have htoken :=
      standsIn_of_offset (t := tokenAt ((Position.origin.after before).after gap) kind text)
      (before ++ gap) text rest rfl (by rw [Position.after_append]; rfl)
      (by rw [Position.after_append, Position.after_append]; rfl)
    rw [List.append_assoc (before ++ gap)] at hrest
    rw [← List.append_assoc before]
    exact List.forall_mem_cons.mpr ⟨htoken, hrest⟩
  | error => exact fun _ ht => absurd ht List.not_mem_nil

/-- Tokens come in order and do not overlap. -/
theorem ordered_of_layout (h : Layout p cs items) :
    (∀ t ∈ tokensOf items, p.offset ≤ t.span.start ∧ t.span.start ≤ t.span.stop) ∧
      (tokensOf items).Pairwise fun t t' => t.span.stop ≤ t'.span.start := by
  -- The first part is what keeps the tokens behind a token apart from it.
  induction h with
  | @eos p gap _ =>
    refine ⟨List.forall_mem_singleton.mpr ⟨?_, Nat.le_refl _⟩, List.pairwise_singleton ..⟩
    show p.offset ≤ (p.after gap).offset
    rw [offset_after]
    exact Nat.le_add_right _ _
  | @token p gap text rest kind items _ _ _ ih =>
    obtain ⟨hrange, hpairwise⟩ := ih
    have hgap : p.offset ≤ (p.after gap).offset := by
      rw [offset_after]
      exact Nat.le_add_right _ _
    have htext : (p.after gap).offset ≤ ((p.after gap).after text).offset := by
      rw [offset_after _ text]
      exact Nat.le_add_right _ _
    refine ⟨List.forall_mem_cons.mpr ⟨⟨hgap, htext⟩, fun t ht => ?_⟩,
      List.pairwise_cons.mpr ⟨fun t ht => ?_, hpairwise⟩⟩
    · exact ⟨Nat.le_trans hgap (Nat.le_trans htext (hrange t ht).1), (hrange t ht).2⟩
    · exact (hrange t ht).1
  | error => exact ⟨fun _ ht => absurd ht List.not_mem_nil, List.Pairwise.nil⟩

end Tokens

/-! ### What tokenizing comes to -/

theorem mapM_id_append_error (ts : List Token) (e : LexError) :
    (ts.map .ok ++ [.error e] : List Item).mapM id = .error e := by
  induction ts with
  | nil => rfl
  | cons t ts ih =>
    rw [List.map_cons, List.cons_append, List.mapM_cons, ih]
    rfl

theorem comesTo_tokenize (source : String) :
    ComesTo (Cursor.ofSource source).items (tokenize source) := by
  obtain ⟨ts, last, hitems, hts, hlast, -⟩ := Cursor.items_eq (Cursor.ofSource source)
  cases last with
  | ok t =>
    have htokens : (Cursor.ofSource source).items = (ts ++ [t]).map .ok := by
      rw [hitems, List.map_append]
      rfl
    rw [tokenize_eq_ok_iff.mpr htokens, htokens]
    exact .tokens hts hlast
  | error e =>
    have herror : tokenize source = .error e := by
      unfold tokenize
      rw [hitems]
      exact mapM_id_append_error ts e
    rw [herror, hitems]
    exact .error hts

/-- **The lexer computes the layout of a source.**  Every source has one layout and no other, and
`tokenize` is what its items come to: the tokens and at last the end of the source, or the first
error.  The tokens come in order, do not overlap, have the text that their spans cover, and are of
the kind that the text says. -/
theorem tokenize_layout (source : String) :
    ∃ items, Layout .origin source.toList items ∧
      (∀ items', Layout .origin source.toList items' → items' = items) ∧
      ComesTo items (tokenize source) ∧
      (tokensOf items).Pairwise (fun t t' => t.span.stop ≤ t'.span.start) ∧
      ∀ t ∈ tokensOf items, t.StandsIn source ∧ t.KindByText := by
  obtain ⟨items, hlayout⟩ := exists_layout .origin source.toList
  have hitems {items' : List Item} (h : Layout .origin source.toList items') :
      (Cursor.ofSource source).items = items' := items_of_layout h
  have hstands := standsIn_of_layout [] hlayout
  rw [List.nil_append, String.ofList_toList] at hstands
  refine ⟨items, hlayout, fun items' h => (hitems h).symm.trans (hitems hlayout), ?_,
    (ordered_of_layout hlayout).2, fun t ht => ⟨hstands t ht, kindByText_of_layout hlayout t ht⟩⟩
  exact hitems hlayout ▸ comesTo_tokenize source

end JackToolchain.Jack
