import JackToolchain.Proofs.Jack.Acceptance
import JackToolchain.Proofs.Jack.Agreement
import JackToolchain.Proofs.Jack.TreeOutput

/-!
# Layout does not matter

Two sources with the same lexemes may differ in blanks, comments and line breaks.  A compilation
comes to the same for both, whatever it compiles to (`compile_layout`): to the same output, or to
errors that differ in the place that their messages cite and in nothing else.

Each stage has its part in this.  The parser takes streams of the same lexemes to trees or errors
that differ in places only, the code generator and the markup of a tree do not look at places, and
the list of tokens consists of lexemes.
-/

namespace JackToolchain.Jack

variable {source source' : String} {tokens tokens' : List Token}

/-! ### Parsing -/

/-- What parsing comes to, without places. -/
def unplacedUnit : Except SyntaxError Class → Except SyntaxError Class
  | .ok c => .ok c.unplaced
  | .error e => .error e.unplaced

theorem TokenStream.alike_ofSource (h : tokenize source = .ok tokens)
    (h' : tokenize source' = .ok tokens')
    (hlexemes : tokens.map Token.toLexeme = tokens'.map Token.toLexeme) :
    (TokenStream.ofSource source).Alike (TokenStream.ofSource source') := by
  have hmap (ts : List Token) : (ts.map Except.ok).map Item.unplaced =
      (ts.map Token.toLexeme).map .ok := by
    rw [List.map_map, List.map_map]
    rfl
  unfold Alike
  rw [items_ofSource, items_ofSource, tokenize_eq_ok_iff.mp h, tokenize_eq_ok_iff.mp h', hmap,
    hmap, hlexemes]

theorem parseUnit_eq (source : String) : parseUnit source =
    match Parse.unitAt (TokenStream.ofSource source).fuel (TokenStream.ofSource source) with
    | .ok c _ => .ok c
    | .error e _ => .error e := rfl

/-- A source has fuel enough. -/
theorem unitAt_ne_endOfSource (source : String) (s : TokenStream) :
    Parse.unitAt (TokenStream.ofSource source).fuel (TokenStream.ofSource source) ≠
      .error .endOfSource s := by
  intro hr
  have hfits := unitAt_fits (n := (TokenStream.ofSource source).fuel) (s := .ofSource source)
    (by rw [TokenStream.items_ofSource]; exact Cursor.items_ne_nil _)
    (TokenStream.length_items_lt_fuel source)
  rw [hr] at hfits
  obtain ⟨w, item, rest, -, -, hblames, -⟩ := hfits
  cases item <;> exact hblames

/-- **The parser does not look at places.** -/
theorem unplacedUnit_parseUnit
    (h : (TokenStream.ofSource source).Alike (TokenStream.ofSource source')) :
    unplacedUnit (parseUnit source) = unplacedUnit (parseUnit source') := by
  wlog hfuel : (TokenStream.ofSource source).fuel ≤ (TokenStream.ofSource source').fuel
    generalizing source source'
  · exact (this (Eq.symm h) (Nat.le_of_not_le hfuel)).symm
  have hsame := Parse.agrees_unitAt hfuel _ _ h
  have henough := unitAt_ne_endOfSource source
  rw [parseUnit_eq, parseUnit_eq]
  revert hsame henough
  generalize Parse.unitAt (TokenStream.ofSource source).fuel (TokenStream.ofSource source) = r
  generalize Parse.unitAt (TokenStream.ofSource source').fuel (TokenStream.ofSource source') = r'
  intro hsame henough
  cases hsame with
  | exhausted => exact absurd rfl (henough _)
  | ok hc _ => exact congrArg Except.ok hc
  | error he => exact congrArg Except.error he

/-! ### Outcomes -/

/-- Two compilations come to the same output, or to the same error at places that may differ.  Their
messages agree in front of the place and behind it. -/
inductive SameOutcome : Except CompileError String → Except CompileError String → Prop
  | output (text : String) : SameOutcome (.ok text) (.ok text)
  | error {e e' : CompileError} {before after : String} : e.unplaced = e'.unplaced →
      e.message = before ++ e.place ++ after → e'.message = before ++ e'.place ++ after →
      SameOutcome (.error e) (.error e')

theorem SameOutcome.of_unplaced {e e' : CompileError} (h : e.unplaced = e'.unplaced) :
    SameOutcome (.error e) (.error e') := by
  have hheading : e'.heading = e.heading := by
    rw [← e'.heading_unplaced, ← h, e.heading_unplaced]
  have hdetails : e'.details = e.details := by
    rw [← e'.details_unplaced, ← h, e.details_unplaced]
  refine .error h e.message_eq ?_
  rw [← hheading, ← hdetails]
  exact e'.message_eq

theorem sameOutcome_tokens (h : tokenize source = .ok tokens) (h' : tokenize source' = .ok tokens')
    (hlexemes : tokens.map Token.toLexeme = tokens'.map Token.toLexeme) :
    SameOutcome (compile .tokens source) (compile .tokens source') := by
  have hlisting : tokenListing tokens = tokenListing tokens' := by
    rw [← String.toList_inj, toList_tokenListing, toList_tokenListing, hlexemes]
  show SameOutcome (Compilation.ofTokens source).output (Compilation.ofTokens source').output
  rw [Compilation.ofTokens, Compilation.ofTokens, h, h']
  show SameOutcome (.ok (tokenListing tokens)) (.ok (tokenListing tokens'))
  rw [hlisting]
  exact .output _

/-- Computations that are the same without places come to the same, or to errors that are the same
without places. -/
theorem Generation.same_of_unplaced {α : Type} {m m' : Generation α} (h : unplaced m = unplaced m')
    (g : Generator) : (∃ a g', m g = .ok a g' ∧ m' g = .ok a g') ∨
      ∃ e e' g', m g = .error e g' ∧ m' g = .error e' g' ∧ e.unplaced = e'.unplaced := by
  have hrun := congrFun h g
  unfold unplaced at hrun
  cases hr : m g <;> cases hr' : m' g <;> rw [hr, hr'] at hrun
  case ok.ok =>
    obtain ⟨rfl, rfl⟩ := EStateM.Result.ok.inj hrun
    exact .inl ⟨_, _, rfl, rfl⟩
  case error.error =>
    obtain ⟨he, rfl⟩ := EStateM.Result.error.inj hrun
    exact .inr ⟨_, _, _, rfl, rfl, he⟩
  all_goals cases hrun

theorem compile_vm_of_parse {c : Class} (h : parseUnit source = .ok c) : compile .vm source =
    match c.generate (Generator.new .unlimited) with
    | .ok _ g => .ok (VM.programText g.sink.commands.toList)
    | .error e _ => .error e := by
  show (Compilation.ofCommands source).output = _
  rw [Compilation.ofCommands, h]
  show ((Generator.new .unlimited).compile c).1.map (fun _ => VM.programText
    ((Generator.new .unlimited).compile c).2.sink.commands.toList) = _
  unfold Generator.compile EStateM.run
  cases c.generate (Generator.new .unlimited) <;> rfl

theorem compile_of_parse_error {e : SyntaxError} (h : parseUnit source = .error e)
    {mode : OutputMode} (hmode : mode ≠ .tokens) : compile mode source = .error (.ofSyntax e) := by
  cases mode with
  | vm =>
    show (Compilation.ofCommands source).output = _
    rw [Compilation.ofCommands, h]
  | tree =>
    show (Compilation.ofTree source).output = _
    rw [Compilation.ofTree, h]
  | tokens => exact absurd rfl hmode

/-- When parsing comes to the same, places aside, so does every compilation that begins with it. -/
theorem sameOutcome_of_unplacedUnit
    (h : unplacedUnit (parseUnit source) = unplacedUnit (parseUnit source')) {mode : OutputMode}
    (hmode : mode ≠ .tokens) : SameOutcome (compile mode source) (compile mode source') := by
  cases hparse : parseUnit source <;> cases hparse' : parseUnit source'
    <;> rw [hparse, hparse'] at h
  case error.error e e' =>
    rw [compile_of_parse_error hparse hmode, compile_of_parse_error hparse' hmode]
    refine .of_unplaced ?_
    rw [CompileError.unplaced_ofSyntax, CompileError.unplaced_ofSyntax, Except.error.inj h]
  case ok.ok c c' =>
    have hc : c.unplaced = c'.unplaced := Except.ok.inj h
    cases mode with
    | vm =>
      have hgenerate : Generation.unplaced c.generate = Generation.unplaced c'.generate := by
        rw [← c.generate_unplaced, hc, c'.generate_unplaced]
      rw [compile_vm_of_parse hparse, compile_vm_of_parse hparse']
      rcases Generation.same_of_unplaced hgenerate (Generator.new .unlimited) with
        ⟨a, g, hr, hr'⟩ | ⟨e, e', g, hr, hr', he⟩
      · rw [hr, hr']
        exact .output _
      · rw [hr, hr']
        exact .of_unplaced he
    | tree =>
      have hmarkup : c.markup = c'.markup := by
        rw [← c.markup_unplaced, hc, c'.markup_unplaced]
      rw [compile_tree_of_parse hparse, compile_tree_of_parse hparse', hmarkup]
      exact .output _
    | tokens => exact absurd rfl hmode
  all_goals cases h

/-- **Layout does not matter.** -/
theorem compile_layout (h : tokenize source = .ok tokens) (h' : tokenize source' = .ok tokens')
    (hlexemes : tokens.map Token.toLexeme = tokens'.map Token.toLexeme) (mode : OutputMode) :
    SameOutcome (compile mode source) (compile mode source') := by
  have hunit := unplacedUnit_parseUnit (TokenStream.alike_ofSource h h' hlexemes)
  cases mode with
  | vm => exact sameOutcome_of_unplacedUnit hunit nofun
  | tree => exact sameOutcome_of_unplacedUnit hunit nofun
  | tokens => exact sameOutcome_tokens h h' hlexemes

/-- A class with an undefined variable, on a single line. -/
def denseSource : String := "class A\x7bfunction int f()\x7breturn x;\x7d\x7d"

/-- The same lexemes on three lines, with a comment. -/
def spreadSource : String :=
  "class A \x7b // one\n  function int f() \x7b return\n    x; \x7d \x7d\n"

theorem compile_layout_spread : ∃ tokens tokens', tokenize denseSource = .ok tokens ∧
    tokenize spreadSource = .ok tokens' ∧ tokens.map Token.toLexeme = tokens'.map Token.toLexeme ∧
      ∀ mode, SameOutcome (compile mode denseSource) (compile mode spreadSource) := by
  have hlexemes : (tokenize denseSource).map (·.map Token.toLexeme) =
      (tokenize spreadSource).map (·.map Token.toLexeme) := by
    decide +kernel
  have hok : (tokenize denseSource).toOption.isSome = true := by decide +kernel
  cases h : tokenize denseSource with
  | error e =>
    rw [h] at hok
    cases hok
  | ok tokens =>
    cases h' : tokenize spreadSource with
    | error e =>
      rw [h, h'] at hlexemes
      cases hlexemes
    | ok tokens' =>
      rw [h, h'] at hlexemes
      have heq : tokens.map Token.toLexeme = tokens'.map Token.toLexeme := Except.ok.inj hlexemes
      exact ⟨tokens, tokens', rfl, rfl, heq, compile_layout h h' heq⟩

end JackToolchain.Jack
