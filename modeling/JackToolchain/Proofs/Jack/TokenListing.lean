import JackToolchain.Proofs.Jack.TreeOutput

/-!
# A list of tokens can be read back

The list of the tokens of a source has one line for each token but the end of the source.  From a
line one gets the tag and the text of its token (`readElement`): the tag ends with the first `>`,
the text stands between exactly one blank on each side, and the four entities stand for the
characters that cannot be written as they are.  An escaped text has no `<` of its own, so it ends
where the closing tag begins, and every `&` in it begins an entity (`unescaped_escaped`), whatever
the text looks like: text like markup or like an entity, or blanks at its ends.

So the list says of each token what it is and how it is spelled (`readListing_tokenListing`), and
sources with the same list agree in both.
-/

namespace JackToolchain.Jack

variable {c : Char} {text : List Char} {l : Lexeme} {source : String} {tokens tokens' : List Token}

/-! ### Escaped texts -/

/-- The text that an escaped text stands for.  An ampersand has to begin an entity. -/
def unescaped : List Char → Option (List Char)
  | [] => some []
  | '&' :: 'l' :: 't' :: ';' :: text => (unescaped text).map ('<' :: ·)
  | '&' :: 'g' :: 't' :: ';' :: text => (unescaped text).map ('>' :: ·)
  | '&' :: 'q' :: 'u' :: 'o' :: 't' :: ';' :: text => (unescaped text).map ('"' :: ·)
  | '&' :: 'a' :: 'm' :: 'p' :: ';' :: text => (unescaped text).map ('&' :: ·)
  | '&' :: _ => none
  | c :: text => (unescaped text).map (c :: ·)

/-- One character is read back. -/
theorem unescaped_escapedChar (c : Char) (text : List Char) :
    unescaped (escapedChar c ++ text) = (unescaped text).map (c :: ·) := by
  unfold escapedChar
  split
  · rfl
  · rfl
  · rfl
  · rfl
  · next hamp =>
    rw [List.singleton_append, unescaped]
    all_goals simp_all

/-- **An escaped text is read back.** -/
theorem unescaped_escaped (text : List Char) :
    unescaped (text.flatMap escapedChar) = some text := by
  induction text with
  | nil => rfl
  | cons c text ih =>
    rw [List.flatMap_cons, unescaped_escapedChar, ih]
    rfl

/-- An escaped text has no angle bracket of its own. -/
theorem bracket_notMem_escaped (text : List Char) : '<' ∉ text.flatMap escapedChar := by
  intro hmem
  obtain ⟨c, -, hc⟩ := List.mem_flatMap.mp hmem
  unfold escapedChar at hc
  split at hc
  case h_5 hless _ _ _ => exact hless (List.mem_singleton.mp hc).symm
  all_goals exact absurd hc (by decide)

/-! ### Lines -/

/-- Reads the text and the closing tag behind the name of an opening tag. -/
def readText (tag : List Char) : List Char → Option (String × String)
  | '>' :: ' ' :: behind =>
    let body := behind.takeWhile (· != '<')
    if body.getLast? = some ' ' ∧ behind.dropWhile (· != '<') = '<' :: '/' :: (tag ++ ['>']) then
      (unescaped body.dropLast).map fun text => (String.ofList tag, String.ofList text)
    else none
  | _ => none

/-- The tag and the text of an element that stands on a line. -/
def readElement : List Char → Option (String × String)
  | '<' :: line => readText (line.takeWhile (· != '>')) (line.dropWhile (· != '>'))
  | _ => none

/-- **The line of a lexeme says what it is and how it is spelled.** -/
theorem readElement_element (l : Lexeme) :
    readElement l.element.toList = some (l.kind.tag, l.contents) := by
  have htag : ∀ c ∈ l.kind.tag.toList, (c != '>') = true := by
    intro c hc
    refine bne_iff_ne.mpr ?_
    rintro rfl
    exact absurd (l.kind.isAlpha_of_mem_tag _ hc) (by decide)
  have hbody : ∀ c ∈ (escaped l.contents).toList ++ [' '], (c != '<') = true := by
    intro c hc
    refine bne_iff_ne.mpr ?_
    rintro rfl
    rw [escaped, String.toList_ofList] at hc
    rcases List.mem_append.mp hc with hc | hc
    · exact bracket_notMem_escaped _ hc
    · exact absurd hc (by decide)
  have hbracket (p : Char → Bool) (x : Char) (line : List Char) (hx : p x = false) :
      ∀ c ∈ (x :: line).head?, p c = false := by
    rintro _ ⟨⟩
    exact hx
  have hsplit : (escaped l.contents).toList ++ (' ' :: '<' :: '/' :: (l.kind.tag.toList ++ ['>'])) =
      ((escaped l.contents).toList ++ [' ']) ++ ('<' :: '/' :: (l.kind.tag.toList ++ ['>'])) := by
    rw [List.append_assoc]
    rfl
  rw [l.toList_element, readElement]
  rw [Text.takeWhile_run htag (hbracket _ _ _ rfl), Text.dropWhile_run htag (hbracket _ _ _ rfl),
    hsplit, readText]
  rw [Text.takeWhile_run hbody (hbracket _ _ _ rfl), Text.dropWhile_run hbody (hbracket _ _ _ rfl),
    if_pos ⟨List.getLast?_concat, rfl⟩, List.dropLast_concat, escaped, String.toList_ofList,
    unescaped_escaped, Option.map_some, String.ofList_toList, String.ofList_toList]

/-- The elements of a list of tokens, read line by line. -/
def readListing (listing : List Char) : Option (List (String × String)) :=
  match Text.lines listing with
  | [] => none
  | first :: lines =>
    if first = "<tokens>".toList ∧ lines.getLast? = some "</tokens>".toList
      then lines.dropLast.mapM readElement
    else none

/-! ### Lists of tokens -/

/-- The classes of tokens and their texts.  The end of the source is not listed. -/
def classified (tokens : List Token) : List (String × String) :=
  (tokens.filter (·.kind != .eos)).map fun t => (t.kind.tag, t.contents)

theorem mapM_readElement_listedLines (lexemes : List Lexeme) :
    (listedLines lexemes).mapM readElement =
    some ((lexemes.filter (·.kind != .eos)).map fun l => (l.kind.tag, l.contents)) := by
  unfold listedLines
  generalize lexemes.filter (·.kind != .eos) = listed
  induction listed with
  | nil => rfl
  | cons l listed ih =>
    rw [List.map_cons, List.mapM_cons, readElement_element, ih]
    rfl

theorem readListing_tokenListing (h : ∀ t ∈ tokens, t.Spelled) :
    readListing (tokenListing tokens).toList = some (classified tokens) := by
  unfold readListing
  rw [lines_tokenListing h, List.cons_append]
  dsimp only
  rw [if_pos ⟨rfl, List.getLast?_concat⟩, List.dropLast_concat, mapM_readElement_listedLines,
    List.filter_map, List.map_map]
  rfl

/-! ### Sources -/

theorem spelled_of_tokenize (h : tokenize source = .ok tokens) : ∀ t ∈ tokens, t.Spelled := by
  intro t ht
  refine TokenStream.allSpelled_ofSource source t ?_
  rw [TokenStream.items_ofSource, tokenize_eq_ok_iff.mp h]
  exact List.mem_map_of_mem ht

theorem compile_tokens_of_tokenize (h : tokenize source = .ok tokens) :
    compile .tokens source = .ok (tokenListing tokens) := by
  show (Compilation.ofTokens source).output = _
  rw [Compilation.ofTokens, h]

/-- A source with a list of tokens consists of tokens. -/
theorem tokenize_of_compile {listing : String} (h : compile .tokens source = .ok listing) :
    ∃ tokens, tokenize source = .ok tokens ∧ tokenListing tokens = listing := by
  have hrun : compile .tokens source = (Compilation.ofTokens source).output := rfl
  rw [hrun, Compilation.ofTokens] at h
  cases htokens : tokenize source with
  | error e =>
    rw [htokens] at h
    cases h
  | ok tokens =>
    rw [htokens] at h
    exact ⟨tokens, rfl, Except.ok.inj h⟩

theorem length_listedLines (tokens : List Token) :
    (listedLines (tokens.map Token.toLexeme)).length = (tokens.filter (·.kind != .eos)).length := by
  unfold listedLines
  rw [List.length_map, List.filter_map, List.length_map]
  rfl

/-- **The list of the tokens of a source loses nothing.**  Between its first and its last line, the
list has one line for each token but the end of the source, and reading the lines gives the class
and the text of each token, in order.  A string constant consists of its contents between two
quotes, so its contents are all there is to it.  Sources with the same list have tokens of the same
classes and with the same texts. -/
theorem listing_read_back (h : tokenize source = .ok tokens) :
    compile .tokens source = .ok (tokenListing tokens) ∧
      (∃ lines, Text.lines (tokenListing tokens).toList = "<tokens>".toList :: lines
        ++ ["</tokens>".toList] ∧ lines.length = (tokens.filter (·.kind != .eos)).length) ∧
      readListing (tokenListing tokens).toList = some (classified tokens) ∧
      (∀ t ∈ tokens, t.kind = .string → t.text = "\"" ++ t.contents ++ "\"") ∧
      ∀ source', compile .tokens source' = .ok (tokenListing tokens) →
        ∃ tokens', tokenize source' = .ok tokens' ∧ classified tokens' = classified tokens := by
  have hread := readListing_tokenListing (spelled_of_tokenize h)
  refine ⟨compile_tokens_of_tokenize h,
    ⟨_, lines_tokenListing (spelled_of_tokenize h), length_listedLines tokens⟩, hread, ?_, ?_⟩
  · intro t ht hkind
    exact congrArg Lexeme.text ((spelled_of_tokenize h t ht).eq_ofString hkind)
  · intro source' h'
    obtain ⟨tokens', htokens', hlisting⟩ := tokenize_of_compile h'
    have hread' := readListing_tokenListing (spelled_of_tokenize htokens')
    rw [hlisting, hread] at hread'
    exact ⟨tokens', htokens', (Option.some.inj hread').symm⟩

/-- A source whose string constants have blanks at their ends, or look like entities and
elements. -/
def markupSource : String := "a<\"  &lt; \" \"</tokens>\" & \"ä \" 0"

theorem listing_read_back_markup : ∃ tokens, tokenize markupSource = .ok tokens ∧
    classified tokens = [("identifier", "a"), ("symbol", "<"), ("stringConstant", "  &lt; "),
      ("stringConstant", "</tokens>"), ("symbol", "&"), ("stringConstant", "ä "),
      ("integerConstant", "0")] ∧
    compile .tokens markupSource = .ok (tokenListing tokens) ∧
      readListing (tokenListing tokens).toList = some (classified tokens) := by
  have hclassified : (tokenize markupSource).map classified =
      .ok [("identifier", "a"), ("symbol", "<"), ("stringConstant", "  &lt; "),
        ("stringConstant", "</tokens>"), ("symbol", "&"), ("stringConstant", "ä "),
        ("integerConstant", "0")] := by
    decide +kernel
  cases h : tokenize markupSource with
  | error e =>
    rw [h] at hclassified
    cases hclassified
  | ok tokens =>
    rw [h] at hclassified
    obtain ⟨hcompile, -, hread, -, -⟩ := listing_read_back h
    exact ⟨tokens, rfl, Except.ok.inj hclassified, hcompile, hread⟩

end JackToolchain.Jack
