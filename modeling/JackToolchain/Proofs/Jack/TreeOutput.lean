import JackToolchain.Proofs.Text.Lines
import JackToolchain.Proofs.Jack.Acceptance
import JackToolchain.Proofs.Jack.FunctionBlocks
import JackToolchain.Proofs.Jack.Keeping
import JackToolchain.Proofs.Jack.MarkupLines

/-!
# The tree of a source and the list of its tokens

Both outputs in XML consist of lines.  The lexemes of a source are spelled on one line each, so the
text of a tree has the lines of its markup, and the text of a list of tokens has a line for each of
them.  Since the lexemes of a tree are those of its source, the leaves of the tree are the lines of
the list (`leaves_of_tree`).
-/

namespace JackToolchain.Jack

variable {tag : String} {l : Lexeme}

/-! ### The lines of a text -/

/-- A text that stands on one line and ends with an angle bracket. -/
def EndsInBracket (line : List Char) : Prop := '\n' ∉ line ∧ line.getLast? = some '>'

theorem lines_of_endsInBracket {ls : List (List Char)} (h : ∀ line ∈ ls, EndsInBracket line) :
    Text.lines (ls.flatMap (· ++ ['\n'])) = ls :=
  Text.lines_flatMap_feed fun line hline => ⟨(h line hline).1, by simp [(h line hline).2]⟩

theorem endsInBracket_indented {line : List Char} (h : EndsInBracket line) (depth : Nat) :
    EndsInBracket (indented depth line) := by
  unfold indented
  refine ⟨List.not_mem_append (by simp) h.1, ?_⟩
  rw [List.getLast?_append, h.2]
  rfl

theorem notMem_feed_of_isAlpha (htag : ∀ c ∈ tag.toList, c.isAlpha = true) :
    '\n' ∉ tag.toList := fun hmem =>
  absurd (htag _ hmem) (by decide)

theorem endsInBracket_openingLine (htag : ∀ c ∈ tag.toList, c.isAlpha = true) :
    EndsInBracket (openingLine tag) := by
  simp [EndsInBracket, openingLine, notMem_feed_of_isAlpha htag, List.getLast?_cons]

theorem endsInBracket_closingLine (htag : ∀ c ∈ tag.toList, c.isAlpha = true) :
    EndsInBracket (closingLine tag) := by
  simp [EndsInBracket, closingLine, notMem_feed_of_isAlpha htag, List.getLast?_cons]

theorem feed_mem_of_mem_escapedChar {c : Char} (h : '\n' ∈ escapedChar c) : c = '\n' := by
  unfold escapedChar at h
  split at h
  case h_5 => exact (List.mem_singleton.mp h).symm
  all_goals exact absurd h (by decide)

theorem Lexeme.contents_subset (l : Lexeme) : l.contents.toList ⊆ l.text.toList := by
  unfold contents
  split
  · rw [String.toList_ofList]
    exact ((List.dropLast_sublist _).trans (List.drop_sublist _ _)).subset
  · exact List.Subset.refl _

theorem Lexeme.endsInBracket_element (h : '\n' ∉ l.text.toList) :
    EndsInBracket l.element.toList := by
  have hescaped : '\n' ∉ (escaped l.contents).toList := by
    rw [escaped, String.toList_ofList]
    intro hmem
    obtain ⟨c, hc, hfeed⟩ := List.mem_flatMap.mp hmem
    rw [feed_mem_of_mem_escapedChar hfeed] at hc
    exact h (l.contents_subset hc)
  have htag := notMem_feed_of_isAlpha l.kind.isAlpha_of_mem_tag
  rw [l.toList_element]
  simp [EndsInBracket, htag, hescaped, List.getLast?_cons]

namespace Markup

mutual

theorem endsInBracket_of_mem_lines {m : Markup} (hm : m.WellTagged)
    (hleaves : ∀ l ∈ m.lexemes, '\n' ∉ l.text.toList) (depth : Nat) :
    ∀ line ∈ m.lines depth, EndsInBracket line := by
  cases m with
  | leaf l =>
    have hl : EndsInBracket l.element.toList :=
      l.endsInBracket_element (hleaves l (List.mem_singleton_self l))
    exact List.forall_mem_singleton.mpr (endsInBracket_indented hl depth)
  | element tag children =>
    obtain ⟨htag, hchildren⟩ := hm
    refine List.forall_mem_cons.mpr ⟨endsInBracket_indented (endsInBracket_openingLine htag) depth,
      ?_⟩
    exact List.forall_mem_append.mpr ⟨endsInBracket_of_mem_linesAll hchildren hleaves (depth + 1),
      List.forall_mem_singleton.mpr (endsInBracket_indented (endsInBracket_closingLine htag) depth)⟩

theorem endsInBracket_of_mem_linesAll {ms : List Markup} (hms : WellTaggedAll ms)
    (hleaves : ∀ l ∈ lexemesAll ms, '\n' ∉ l.text.toList) (depth : Nat) :
    ∀ line ∈ linesAll depth ms, EndsInBracket line := by
  cases ms with
  | nil => exact List.forall_mem_nil _
  | cons m ms =>
    obtain ⟨hm, hms⟩ := hms
    obtain ⟨hhead, htail⟩ := List.forall_mem_append.mp hleaves
    exact List.forall_mem_append.mpr ⟨endsInBracket_of_mem_lines hm hhead depth,
      endsInBracket_of_mem_linesAll hms htail depth⟩

end

/-- The text of markup that stands by itself has the lines of the markup. -/
theorem lines_render {m : Markup} (hm : m.WellTagged)
    (hleaves : ∀ l ∈ m.lexemes, '\n' ∉ l.text.toList) : Text.lines m.render.toList = m.lines 0 := by
  have htext : m.render.toList = (m.lines 0).flatMap (· ++ ['\n']) := toList_write m "" 0
  rw [htext, lines_of_endsInBracket (endsInBracket_of_mem_lines hm hleaves 0)]

end Markup

/-! ### The list of tokens -/

/-- The lines of a list of tokens: one line for each token but the end of the source. -/
def listedLines (lexemes : List Lexeme) : List (List Char) :=
  (lexemes.filter (·.kind != .eos)).map (·.element.toList)

theorem toList_tokenListing (tokens : List Token) : (tokenListing tokens).toList =
    ("<tokens>".toList :: listedLines (tokens.map Token.toLexeme) ++ ["</tokens>".toList]).flatMap
      (· ++ ['\n']) := by
  have hfoldl (listed : List Token) (out : String) :
      (listed.foldl (fun out t => out ++ t.toLexeme.element ++ "\n") out).toList =
        out.toList ++ (listed.map (·.toLexeme.element.toList)).flatMap (· ++ ['\n']) := by
    induction listed generalizing out with
    | nil => exact (List.append_nil _).symm
    | cons t listed ih => simp [ih]
  unfold tokenListing listedLines
  rw [String.toList_append, hfoldl, List.filter_map, List.map_map]
  simp only [List.cons_append, List.flatMap_cons, List.flatMap_append, List.flatMap_nil]
  rfl

theorem lines_tokenListing {tokens : List Token} (h : ∀ t ∈ tokens, t.Spelled) :
    Text.lines (tokenListing tokens).toList =
      "<tokens>".toList :: listedLines (tokens.map Token.toLexeme) ++ ["</tokens>".toList] := by
  rw [toList_tokenListing]
  refine lines_of_endsInBracket (List.forall_mem_cons.mpr ⟨⟨by decide, by decide⟩, ?_⟩)
  refine List.forall_mem_append.mpr ⟨?_, List.forall_mem_singleton.mpr ⟨by decide, by decide⟩⟩
  intro line hline
  obtain ⟨l, hl, rfl⟩ := List.mem_map.mp hline
  obtain ⟨t, ht, rfl⟩ := List.mem_map.mp (List.mem_filter.mp hl).1
  exact t.toLexeme.endsInBracket_element (h t ht).noFeed

/-! ### Sources -/

theorem listedLines_of_parseUnit {source : String} {c : Class} {tokens : List Token}
    (htokens : tokenize source = .ok tokens)
    (hlexemes : tokens.map Token.toLexeme = c.markup.lexemes ++ [⟨.eos, ""⟩]) :
    listedLines (tokens.map Token.toLexeme) = c.markup.lexemes.map (·.element.toList) := by
  have hnotEnd : ∀ l ∈ c.markup.lexemes, l.kind ≠ .eos := by
    obtain ⟨front, last, rfl, hfront, hlast⟩ := List.map_eq_append_iff.mp hlexemes
    obtain ⟨t, rfl, -⟩ := List.map_eq_singleton_iff.mp hlast
    have hitems := tokenize_eq_ok_iff.mp htokens
    rw [List.map_append] at hitems
    rw [← hfront]
    intro l hl
    obtain ⟨t', ht', rfl⟩ := List.mem_map.mp hl
    exact kind_ne_eos hitems ht'
  unfold listedLines
  rw [hlexemes, List.filter_append,
    List.filter_eq_self.mpr fun l hl => bne_iff_ne.mpr (hnotEnd l hl)]
  exact congrArg _ (List.append_nil _)

theorem compile_tree_of_parse {source : String} {c : Class} (h : parseUnit source = .ok c) :
    compile .tree source = .ok c.markup.render := by
  show (Compilation.ofTree source).output = _
  rw [Compilation.ofTree, h]

/-- **The tree keeps every token, and its lines are well nested.**  When a source has a tree, it has
a list of tokens too.  The lines of the tree are balanced and indented, its leaves are the lines of
the list, and the counter of the writer gets through and ends at zero. -/
theorem leaves_of_tree {source output : String} (h : compile .tree source = .ok output) :
    ∃ (listing : String) (leaves : List (List Char)), compile .tokens source = .ok listing ∧
      Text.lines listing.toList = "<tokens>".toList :: leaves ++ ["</tokens>".toList] ∧
      leafLines (Text.lines output.toList) = leaves ∧
      nestedLeaves [] (Text.lines output.toList) = some leaves ∧
      ∃ c, parseUnit source = .ok c ∧ c.markup.visit ⟨"", 0⟩ = some ⟨output, 0⟩ := by
  have hrun : compile .tree source = (Compilation.ofTree source).output := rfl
  rw [hrun, Compilation.ofTree] at h
  cases hparse : parseUnit source with
  | error e =>
    rw [hparse] at h
    cases h
  | ok c =>
    rw [hparse] at h
    cases h
    obtain ⟨tokens, htokens, hlexemes⟩ := lexemes_of_parseUnit hparse
    have hspelled : ∀ t ∈ tokens, t.Spelled := by
      intro t ht
      refine TokenStream.allSpelled_ofSource source t ?_
      rw [TokenStream.items_ofSource, tokenize_eq_ok_iff.mp htokens]
      exact List.mem_map_of_mem ht
    have hleaves : ∀ l ∈ c.markup.lexemes, '\n' ∉ l.text.toList := by
      intro l hl
      have hmem : l ∈ tokens.map Token.toLexeme := hlexemes ▸ List.mem_append_left _ hl
      obtain ⟨t, ht, rfl⟩ := List.mem_map.mp hmem
      exact (hspelled t ht).noFeed
    have hlisting : compile .tokens source = .ok (tokenListing tokens) := by
      show (Compilation.ofTokens source).output = _
      rw [Compilation.ofTokens, htokens]
    have hnested : nestedLeaves [] (Text.lines c.markup.render.toList) =
        some (c.markup.lexemes.map (·.element.toList)) := by
      have hlines := Markup.nestedLeaves_lines c.wellTagged_markup [] []
      rw [List.append_nil] at hlines
      rw [Markup.lines_render c.wellTagged_markup hleaves]
      exact hlines.trans (congrArg some (List.append_nil _))
    refine ⟨tokenListing tokens, c.markup.lexemes.map (·.element.toList), hlisting, ?_,
      leafLines_of_nestedLeaves hnested, hnested, c, rfl, c.markup.visit_eq ⟨"", 0⟩⟩
    rw [lines_tokenListing hspelled, listedLines_of_parseUnit htokens hlexemes]

theorem leaves_of_tree_cell : ∃ (output listing : String) (leaves : List (List Char)),
    compile .tree cellSource = .ok output ∧ compile .tokens cellSource = .ok listing ∧
      Text.lines listing.toList = "<tokens>".toList :: leaves ++ ["</tokens>".toList] ∧
      leafLines (Text.lines output.toList) = leaves ∧
      nestedLeaves [] (Text.lines output.toList) = some leaves ∧
      ∃ c, parseUnit cellSource = .ok c ∧ c.markup.visit ⟨"", 0⟩ = some ⟨output, 0⟩ := by
  obtain ⟨output, houtput⟩ := exists_output_cell
  obtain ⟨c, hparse⟩ := exists_class_of_compile houtput
  have htree := compile_tree_of_parse hparse
  obtain ⟨listing, leaves, hleaves⟩ := leaves_of_tree htree
  exact ⟨c.markup.render, listing, leaves, htree, hleaves⟩

end JackToolchain.Jack
