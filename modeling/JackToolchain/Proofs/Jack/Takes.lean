import JackToolchain.Proofs.Jack.Spelling

/-!
# What a reader takes

A token of a source is spelled as its kind says, on one line (`TokenStream.allSpelled_ofSource`);
keywords and symbols are spelled in one way only.

A reader is described by a relation between the lexemes that it takes off a stream and its result
(`Reading.Takes`).  Readers in a row take one sequence behind the other (`Reading.TakesFrom.bind`).
-/

namespace JackToolchain.Jack

/-! ### Lexemes of a source -/

/-- A token is spelled as its kind says, on one line, and a string constant stands between
quotes. -/
structure Token.Spelled (t : Token) : Prop extends t.KindByText where
  noFeed : '\n' ∉ t.text.toList
  quoted : t.kind = .string → ∃ contents, t.text = "\"" ++ contents ++ "\""

/-- The tokens that are left are well spelled. -/
def TokenStream.AllSpelled (s : TokenStream) : Prop := ∀ t, .ok t ∈ s.items → t.Spelled

section
variable {rest text : List Char} {kind : Kind} {p : Position} {items : List Item}

theorem Run.noFeed (h : Run rest text) : '\n' ∉ text := fun hmem =>
  Bool.noConfusion
    (((h.wordlike _ hmem).not_blank).symm.trans (by decide : Text.isBlank '\n' = true))

theorem Spells.noFeed (h : Spells rest text kind) : '\n' ∉ text := by
  cases h with
  | symbol s => cases s <;> decide
  | @string body hquote hfeed => simp [hfeed]
  | keyword k h => exact h.noFeed
  | int h => exact h.noFeed
  | ident h => exact h.noFeed

theorem spelled_of_spells (h : Spells rest text kind) : (tokenAt p kind text).Spelled where
  toKindByText := kindByText_of_spells h
  noFeed := by
    show '\n' ∉ (String.ofList text).toList
    rw [String.toList_ofList]
    exact h.noFeed
  quoted := by
    rintro (rfl : kind = .string)
    cases h with
    | @string body =>
      refine ⟨String.ofList body, ?_⟩
      show String.ofList ('"' :: (body ++ ['"'])) = String.ofList ['"'] ++ String.ofList body
        ++ String.ofList ['"']
      rw [← String.ofList_append, ← String.ofList_append, List.append_assoc]
      rfl

theorem spelled_endToken : (endToken p).Spelled where
  toKindByText := kindByText_endToken
  noFeed := List.not_mem_nil
  quoted := nofun

theorem allSpelled_of_layout {cs : List Char} (h : Layout p cs items) :
    ∀ t ∈ tokensOf items, t.Spelled := by
  induction h with
  | eos => exact List.forall_mem_singleton.mpr spelled_endToken
  | token _ hspells _ ih => exact List.forall_mem_cons.mpr ⟨spelled_of_spells hspells, ih⟩
  | error => exact fun _ ht => absurd ht List.not_mem_nil

end

/-- The tokens of a source are well spelled. -/
theorem TokenStream.allSpelled_ofSource (source : String) :
    (TokenStream.ofSource source).AllSpelled := by
  obtain ⟨items, hlayout⟩ := exists_layout .origin source.toList
  have hitems : (Cursor.ofSource source).items = items := items_of_layout hlayout
  intro t ht
  rw [items_ofSource, hitems] at ht
  exact allSpelled_of_layout hlayout t (List.mem_filterMap.mpr ⟨.ok t, ht, rfl⟩)

namespace Token.Spelled

variable {t : Token}

theorem eq_ofSymbol (h : t.Spelled) {s : Symbol} (hkind : t.kind = .symbol s) :
    t.toLexeme = .ofSymbol s := by
  have htext := (h.symbol s).mp hkind
  obtain ⟨⟨kind, text⟩, span⟩ := t
  cases hkind
  cases htext
  rfl

theorem eq_ofKeyword (h : t.Spelled) {k : Keyword} (hkind : t.kind = .keyword k) :
    t.toLexeme = .ofKeyword k := by
  have htext := (h.keyword k).mp hkind
  obtain ⟨⟨kind, text⟩, span⟩ := t
  cases hkind
  cases htext
  rfl

theorem eq_ident (hkind : t.kind = .ident) : t.toLexeme = ⟨.ident, t.text⟩ := by
  obtain ⟨⟨kind, text⟩, span⟩ := t
  cases hkind
  rfl

end Token.Spelled

theorem Lexeme.contents_ofString (contents : String) : (ofString contents).contents = contents := by
  have htoList : ("\"" ++ contents ++ "\"").toList = '"' :: (contents.toList ++ ['"']) := by
    rw [String.toList_append, String.toList_append]
    rfl
  show String.ofList (("\"" ++ contents ++ "\"").toList.drop 1).dropLast = contents
  rw [htoList, List.drop_one, List.tail_cons, List.dropLast_concat, String.ofList_toList]

theorem Token.Spelled.eq_ofString {t : Token} (h : t.Spelled) (hkind : t.kind = .string) :
    t.toLexeme = .ofString t.contents := by
  obtain ⟨contents, htext⟩ := h.quoted hkind
  obtain ⟨⟨kind, text⟩, span⟩ := t
  cases hkind
  cases htext
  show Lexeme.ofString contents = .ofString (Lexeme.ofString contents).contents
  rw [Lexeme.contents_ofString]

/-! ### Readers -/

namespace TokenStream

/-- A stream has this token in view. -/
def HasInView (t : Token) (s : TokenStream) : Prop := s.items.head? = some (.ok t)

variable {s s' : TokenStream} {t : Token}

theorem AllSpelled.behind {w : List Token} (h : s.AllSpelled)
    (hitems : s.items = w.map .ok ++ s'.items) : s'.AllSpelled := by
  intro t ht
  refine h t ?_
  rw [hitems]
  exact List.mem_append_right _ ht

theorem AllSpelled.of_items (h : s.AllSpelled) (hitems : s'.items = s.items) : s'.AllSpelled :=
  h.behind (w := []) hitems.symm

theorem HasInView.of_items (h : s.HasInView t) (hitems : s'.items = s.items) : s'.HasInView t := by
  unfold HasInView
  rwa [hitems]

theorem HasInView.spelled (h : s.HasInView t) (hs : s.AllSpelled) : t.Spelled :=
  hs t (List.mem_of_head? h)

theorem HasInView.items_eq (h : s.HasInView t) : s.items = .ok t :: s.advance.items := by
  obtain ⟨rest, hitems⟩ := List.head?_eq_some_iff.mp h
  rw [items_advance hitems, hitems]

end TokenStream

namespace Reading

open TokenStream

variable {α β : Type}

/-- On streams of a certain sort, the lexemes that a reader takes are related to its result. -/
def TakesFrom (V : TokenStream → Prop) (p : Reading α) (R : List Lexeme → α → Prop) : Prop :=
  ∀ (s : TokenStream) (a : α) (s' : TokenStream), V s → s.AllSpelled → p s = .ok a s' →
    ∃ w : List Token, s.items = w.map .ok ++ s'.items ∧ R (w.map Token.toLexeme) a

/-- On all streams, the lexemes that a reader takes are related to its result. -/
abbrev Takes (p : Reading α) (R : List Lexeme → α → Prop) : Prop := TakesFrom (fun _ => True) p R

section
variable {V : TokenStream → Prop} {t : Token} {k : Kind} {p : Reading α} {f : α → Reading β}
variable {Q : List Lexeme → α → Prop} {R : List Lexeme → β → Prop}

theorem Takes.from (h : Takes p Q) : TakesFrom V p Q := fun s a s' _ => h s a s' trivial

theorem TakesFrom.mono {Q' : List Lexeme → α → Prop} (h : TakesFrom V p Q)
    (hQ : ∀ u a, Q u a → Q' u a) : TakesFrom V p Q' := by
  intro s a s' hV hs hr
  obtain ⟨w, hitems, hw⟩ := h s a s' hV hs hr
  exact ⟨w, hitems, hQ _ _ hw⟩

theorem TakesFrom.pure {a : α} (h : Q [] a) : TakesFrom V (Pure.pure a) Q := by
  intro s a' s' _ _ hr
  cases hr
  exact ⟨[], rfl, h⟩

/-- **Readers in a row** take one sequence behind the other. -/
theorem TakesFrom.bind (h : TakesFrom V p Q)
    (hf : ∀ u a, Q u a → Takes (f a) fun v b => R (u ++ v) b) : TakesFrom V (p >>= f) R := by
  intro s b s'' hV hs hr
  cases hp : p s with
  | error e s' =>
    rw [bind_of_error hp] at hr
    cases hr
  | ok a s' =>
    rw [bind_of_ok hp] at hr
    obtain ⟨u, hitems, hQ⟩ := h s a s' hV hs hp
    obtain ⟨v, hitems', hR⟩ := hf _ a hQ s' b s'' trivial (hs.behind hitems) hr
    refine ⟨u ++ v, ?_, ?_⟩
    · rw [hitems, hitems', List.map_append, List.append_assoc]
    · rw [List.map_append]
      exact hR

theorem TakesFrom.map {g : α → β} (h : TakesFrom V p fun u a => R u (g a)) :
    TakesFrom V (g <$> p) R := by
  rw [map_eq_pure_bind]
  refine h.bind fun u a ha => .pure ?_
  rwa [List.append_nil]

theorem TakesFrom.discard {S : List Lexeme → Prop} (h : TakesFrom V p fun u _ => S u) :
    TakesFrom V (Functor.discard p) fun u _ => S u :=
  h.map

theorem TakesFrom.exhausted : TakesFrom V (Reading.exhausted : Reading α) Q := by
  intro s a s' _ _ hr
  cases hr

theorem TakesFrom.unexpected {d : String} : TakesFrom V (Reading.unexpected d : Reading α) Q := by
  intro s a s' _ _ hr
  unfold Reading.unexpected at hr
  cases hp : peek s with
  | error e s' =>
    rw [bind_of_error hp] at hr
    cases hr
  | ok t s' =>
    rw [bind_of_ok hp] at hr
    cases hr

/-- A reader that looks at the token in view. -/
theorem TakesFrom.peek {f : Token → Reading β}
    (h : ∀ t, t.Spelled → TakesFrom (HasInView t) (f t) R) :
    TakesFrom V (Reading.peek >>= f) R := by
  intro s b s' _ hs hr
  cases hp : Reading.peek s with
  | error e s' =>
    rw [bind_of_error hp] at hr
    cases hr
  | ok t s₁ =>
    rw [bind_of_ok hp] at hr
    rw [peek_eq] at hp
    obtain ⟨hview, rfl⟩ := ofItem_eq_ok hp
    have hlooked := s.items_looked
    have hview' : s.looked.HasInView t := HasInView.of_items hview hlooked
    obtain ⟨w, hitems, hw⟩ :=
      h t (hview'.spelled (hs.of_items hlooked)) _ b s' hview' (hs.of_items hlooked) hr
    exact ⟨w, hlooked.symm.trans hitems, hw⟩

/-- A reader that decides by the kind of the token in view. -/
theorem TakesFrom.peekKind {f : Kind → Reading β}
    (h : ∀ t, t.Spelled → TakesFrom (HasInView t) (f t.kind) R) :
    TakesFrom V (Reading.peekKind >>= f) R := by
  unfold Reading.peekKind
  rw [bind_assoc]
  simp only [pure_bind]
  exact TakesFrom.peek h

/-- A reader that decides by the kind of the token behind the one in view. -/
theorem TakesFrom.peekSecond {f : Kind → Reading β} (h : ∀ k, TakesFrom (HasInView t) (f k) R) :
    TakesFrom (HasInView t) (Reading.peekSecond >>= f) R := by
  intro s b s' hview hs hr
  cases hp : Reading.peekSecond s with
  | error e s₁ =>
    rw [bind_of_error hp] at hr
    cases hr
  | ok k s₁ =>
    rw [bind_of_ok hp] at hr
    rw [peekSecond_eq hview.items_eq] at hp
    -- The stream has been looked at behind the item in view, whatever was found there.
    cases hitem : ofItem s.advance.items.head? s.lookedBehind with
    | error e s₂ =>
      rw [bind_of_error hitem] at hp
      cases hp
    | ok t' s₂ =>
      rw [bind_of_ok hitem] at hp
      cases hp
      obtain ⟨-, rfl⟩ := ofItem_eq_ok hitem
      have hlooked := s.items_lookedBehind
      obtain ⟨w, hitems, hw⟩ := h _ _ b s' (hview.of_items hlooked) (hs.of_items hlooked) hr
      exact ⟨w, hlooked.symm.trans hitems, hw⟩

/-- The token in view is what is consumed. -/
theorem takes_next :
    TakesFrom (HasInView t) Reading.next fun u t' => u = [t.toLexeme] ∧ t' = t := by
  intro s t' s' hview hs hr
  rw [next_of_ok hview.items_eq] at hr
  cases hr
  exact ⟨[t], hview.items_eq, rfl, rfl⟩

/-- A token of a given kind. -/
theorem takes_expect : Takes (expect k) fun u t => u = [t.toLexeme] ∧ t.kind = k ∧ t.Spelled := by
  refine .peek fun t ht => ?_
  split
  · next hkind =>
    refine takes_next.mono ?_
    rintro u t' ⟨rfl, rfl⟩
    exact ⟨rfl, hkind, ht⟩
  · intro s a s' _ _ hr
    cases hr

/-- A token that there may be, of a kind that is spelled in one way only. -/
theorem takes_accept {l : Lexeme} (hl : ∀ t : Token, t.Spelled → t.kind = k → t.toLexeme = l) :
    Takes (accept k) fun u found => u = found.toList.map fun _ => l := by
  refine .peekKind fun t ht => ?_
  split
  · next hkind =>
    refine .map (takes_next.mono ?_)
    rintro u t' ⟨rfl, rfl⟩
    rw [hl t' ht hkind]
    rfl
  · exact .pure rfl

theorem takes_acceptSymbol (s : Symbol) :
    Takes (accept (.symbol s)) fun u found => u = found.toList.map fun _ => .ofSymbol s :=
  takes_accept fun _ ht => ht.eq_ofSymbol

theorem takes_acceptKeyword (w : Keyword) :
    Takes (accept (.keyword w)) fun u found => u = found.toList.map fun _ => .ofKeyword w :=
  takes_accept fun _ ht => ht.eq_ofKeyword

theorem takes_symbol (s : Symbol) : Takes (expect (.symbol s)) fun u _ => u = [.ofSymbol s] := by
  refine takes_expect.mono ?_
  rintro u t ⟨rfl, hkind, ht⟩
  rw [ht.eq_ofSymbol hkind]

theorem takes_keyword (w : Keyword) :
    Takes (expect (.keyword w)) fun u _ => u = [.ofKeyword w] := by
  refine takes_expect.mono ?_
  rintro u t ⟨rfl, hkind, ht⟩
  rw [ht.eq_ofKeyword hkind]

end

end Reading

end JackToolchain.Jack
