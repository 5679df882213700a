import JackToolchain.Jack.CompileError
import JackToolchain.Proofs.Jack.ParserReads

/-!
# The parser accepts the grammar

A source is accepted if and only if its tokens form a class by the grammar.  Where they do not, the
parser stops at the first item with which no class can begin: what stands before it is the longest
prefix of the items that begins a class, and the error is about the item itself.
-/

namespace JackToolchain.Jack

open Grammar Parse Reading

/-- The tokens of a source form a class. -/
def FormsClass (source : String) : Prop :=
  ∃ (tokens : List Token) (w : List Kind),
    tokenize source = .ok tokens ∧ kinds tokens = w ++ [.eos] ∧ Derives (.rule .class) w

/-- Tokens begin a class. -/
def Viable (tokens : List Token) : Prop := ∃ z, Derives (.rule .class) (kinds tokens ++ z)

/-- An error is the one about an item.  About a token, it is an error of the parser that names the
token and, by its span, the place. -/
def CompileError.IsAbout : CompileError → Item → Prop
  | .lexical e, .error e' => e = e'
  | .syntactic (.mismatch _ t), .ok t' => t = t'
  | .syntactic (.unexpected _ t), .ok t' => t = t'
  | _, _ => False

/-- An error is about the item behind the longest prefix of the items that begins a class. -/
def StopsAtFirst (items : List Item) (e : CompileError) : Prop :=
  ∃ (p : List Token) (item : Item) (rest : List Item),
    items = p.map .ok ++ item :: rest ∧ Viable p ∧
      (∀ q : List Token, q.map .ok <+: items → Viable q → q.length ≤ p.length) ∧ e.IsAbout item

theorem isAbout_ofSyntax {e : SyntaxError} {item : Item} (h : e.Blames item) :
    (CompileError.ofSyntax e).IsAbout item := by
  cases e <;> cases item <;> exact h

/-- What reading a unit comes to. -/
theorem unitAt_fits {n : Nat} {s : TokenStream} (hne : s.items ≠ [])
    (hlength : s.items.length < n) :
    match unitAt n s with
    | .ok _ _ => ∃ (w : List Token) (t : Token),
        s.items = w.map .ok ++ [.ok t] ∧ t.kind = .eos ∧ kinds w ∈ lang .class
    | .error e _ => Stops (lang .class * tok .eos) s.items e := by
  have hfits := reads_classAt s (tok .eos) hne hlength inferInstance avoids_empty
  have hend : [Kind.eos] ∈ tok .eos := ⟨_, rfl, rfl⟩
  unfold unitAt
  cases hr : classAt n s with
  | error e s' =>
    rw [hr] at hfits
    rw [bind_of_error hr]
    exact hfits
  | ok c s' =>
    rw [hr] at hfits
    rw [bind_of_ok hr]
    obtain ⟨w, hitems, hleft, hw, hexact⟩ := hfits
    cases hrest : s'.items with
    | nil => exact absurd hrest hleft
    | cons item rest =>
      rw [hrest] at hitems
      cases item with
      | error e =>
        rw [bind_of_error (peekKind_of_error hrest)]
        exact ⟨w, .error e, rest, hitems, ⟨_, Language.append_mem_mul hw hend⟩, rfl, nofun⟩
      | ok t =>
        have hlooked : s'.looked.items = .ok t :: rest := s'.items_looked.trans hrest
        rw [bind_of_ok (peekKind_of_ok hrest)]
        by_cases ht : t.kind = .eos
        · rw [if_pos ht, bind_of_ok (discard_of_ok (next_of_ok hlooked))]
          rw [TokenStream.rest_of_eos hrest ht] at hitems
          exact ⟨w, t, hitems, ht, hw⟩
        · rw [if_neg ht]
          unfold unexpected
          rw [bind_of_ok (peek_of_ok hlooked)]
          refine ⟨w, .ok t, rest, hitems, ⟨_, Language.append_mem_mul hw hend⟩, rfl, ?_⟩
          rintro t' z ⟨⟩ hmem
          exact ht (cons_mem_tok.mp (hexact t rest z hrest hmem)).1

section
variable {source : String}

/-- The items in front of another one are no end of the source. -/
theorem kind_ne_eos {p : List Token} {item : Item} {rest : List Item} {t : Token}
    (hitems : (Cursor.ofSource source).items = p.map .ok ++ item :: rest) (ht : t ∈ p) :
    t.kind ≠ .eos := by
  obtain ⟨w, last, heq, hw, -⟩ := (Cursor.ofSource source).items_eq
  rw [heq] at hitems
  rw [← List.dropLast_append_getLast (List.cons_ne_nil item rest), ← List.append_assoc] at hitems
  obtain ⟨hfront, -⟩ := List.append_inj' hitems rfl
  have hmem : Except.ok t ∈ w.map (Except.ok (ε := LexError)) := by
    rw [hfront]
    exact List.mem_append_left _ (List.mem_map_of_mem ht)
  obtain ⟨t', ht', heq'⟩ := List.mem_map.mp hmem
  cases heq'
  exact hw t ht'

/-- A beginning of a class and the end behind it is the beginning of a class if the end is not part
of it. -/
theorem viable_of_append_mem {p : List Token} {z : List Kind} (hp : ∀ t ∈ p, t.kind ≠ .eos)
    (h : kinds p ++ z ∈ lang .class * tok .eos) : Viable p := by
  obtain ⟨u, hu, v, ⟨k, rfl, rfl⟩, heq⟩ := Language.mem_mul.mp h
  rcases List.eq_nil_or_concat z with rfl | ⟨z, k, rfl⟩
  · rw [List.append_nil] at heq
    have hmem : Kind.eos ∈ kinds p := by
      rw [← heq]
      exact List.mem_append_right _ (List.mem_singleton_self _)
    obtain ⟨t, ht, heos⟩ := List.mem_map.mp hmem
    exact absurd heos (hp t ht)
  · rw [List.concat_eq_append, ← List.append_assoc] at heq
    obtain ⟨rfl, -⟩ := List.append_inj' heq rfl
    exact ⟨z, hu⟩

/-- What stops in front of the end of the source stops in the grammar. -/
theorem stopsAtFirst_of_stops {e : SyntaxError}
    (h : Stops (lang .class * tok .eos) (Cursor.ofSource source).items e) :
    StopsAtFirst (Cursor.ofSource source).items (.ofSyntax e) := by
  obtain ⟨p, item, rest, hitems, ⟨z, hz⟩, hblames, hstop⟩ := h
  refine ⟨p, item, rest, hitems, viable_of_append_mem (fun t => kind_ne_eos hitems) hz, ?_,
    isAbout_ofSyntax hblames⟩
  intro q hq hviable
  by_contra hlong
  -- A longer beginning would contain the item that was stopped at.
  have hp : p.map Except.ok <+: q.map (Except.ok (ε := LexError)) := by
    refine List.prefix_of_prefix_length_le ?_ hq ?_
    · rw [hitems]
      exact List.prefix_append _ _
    · rw [List.length_map, List.length_map]
      omega
  obtain ⟨more, hmore⟩ := hp
  cases more with
  | nil =>
    have hlength := congrArg List.length hmore
    rw [List.append_nil, List.length_map, List.length_map] at hlength
    omega
  | cons item' more =>
    rw [hitems, ← hmore, List.prefix_append_right_inj] at hq
    obtain ⟨rfl, -⟩ := List.cons_prefix_cons.mp hq
    obtain ⟨q', q'', rfl, hq', hq''⟩ := List.map_eq_append_iff.mp hmore.symm
    obtain rfl : q' = p := List.map_injective_iff.mpr (fun _ _ => Except.ok.inj) hq'
    obtain ⟨t, q'', rfl, rfl, -⟩ := List.map_eq_cons_iff.mp hq''
    obtain ⟨z', hz'⟩ := hviable
    refine hstop t (kinds q'' ++ z' ++ [.eos]) rfl ?_
    have hmem : (kinds (q' ++ t :: q'') ++ z') ++ [.eos] ∈ lang .class * tok .eos :=
      Language.append_mem_mul hz' ⟨_, rfl, rfl⟩
    unfold kinds at hmem ⊢
    rw [List.map_append, List.map_cons, List.append_assoc, List.append_assoc] at hmem
    rwa [List.append_assoc]

/-- A parsed source forms a class. -/
theorem formsClass_of_items {w : List Token} {t : Token}
    (hitems : (Cursor.ofSource source).items = w.map .ok ++ [.ok t]) (ht : t.kind = .eos)
    (hw : kinds w ∈ lang .class) : FormsClass source := by
  refine ⟨w ++ [t], kinds w, tokenize_eq_ok_iff.mpr ?_, ?_, hw⟩
  · rw [hitems, List.map_append]
    rfl
  · rw [kinds, List.map_append, List.map_singleton, ht]
    rfl

/-- Where a reading stops, the source forms no class. -/
theorem not_formsClass_of_stops {e : SyntaxError}
    (h : Stops (lang .class * tok .eos) (Cursor.ofSource source).items e) :
    ¬ FormsClass source := by
  rintro ⟨tokens, u, htokens, hkinds, hu⟩
  obtain ⟨p, item, rest, hitems, -, -, hstop⟩ := h
  rw [tokenize_eq_ok_iff.mp htokens] at hitems
  obtain ⟨p', q, rfl, hp, hq⟩ := List.map_eq_append_iff.mp hitems
  obtain rfl : p' = p := List.map_injective_iff.mpr (fun _ _ => Except.ok.inj) hp
  obtain ⟨t, q, rfl, rfl, -⟩ := List.map_eq_cons_iff.mp hq
  refine hstop t (kinds q) rfl ?_
  have hmem : u ++ [.eos] ∈ lang .class * tok .eos := Language.append_mem_mul hu ⟨_, rfl, rfl⟩
  rwa [← hkinds, kinds, List.map_append, List.map_cons] at hmem

/-- **The parser accepts the classes of the grammar**, and otherwise stops at the first item that
cannot go on. -/
theorem parseUnit_accepts (source : String) :
    ((∃ c, parseUnit source = .ok c) ↔ FormsClass source) ∧
      ∀ e, parseUnit source = .error e →
        StopsAtFirst (Cursor.ofSource source).items (.ofSyntax e) := by
  have hfits := unitAt_fits (n := (TokenStream.ofSource source).fuel) (s := .ofSource source)
    (by rw [TokenStream.items_ofSource]; exact Cursor.items_ne_nil _)
    (TokenStream.length_items_lt_fuel source)
  rw [TokenStream.items_ofSource] at hfits
  have hrun : (withFuel unitAt).run (TokenStream.ofSource source) =
      unitAt (TokenStream.ofSource source).fuel (TokenStream.ofSource source) := rfl
  unfold parseUnit
  rw [hrun]
  cases hr : unitAt (TokenStream.ofSource source).fuel (TokenStream.ofSource source) with
  | ok c s =>
    rw [hr] at hfits
    obtain ⟨w, t, hitems, ht, hw⟩ := hfits
    refine ⟨⟨fun _ => formsClass_of_items hitems ht hw, fun _ => ⟨c, rfl⟩⟩, ?_⟩
    intro e h
    cases h
  | error e s =>
    rw [hr] at hfits
    refine ⟨⟨?_, fun h => absurd h (not_formsClass_of_stops hfits)⟩, ?_⟩
    · rintro ⟨c, h⟩
      cases h
    · intro e' h
      cases h
      exact stopsAtFirst_of_stops hfits

end

end JackToolchain.Jack
