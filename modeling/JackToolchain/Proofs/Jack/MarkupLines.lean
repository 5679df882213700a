import JackToolchain.Jack.Markup

/-!
# The lines of markup are well nested

Markup that is written as XML is read again here, from nothing but its lines.  A line is a leaf, or
it begins or ends an element; which of these it is one sees from its text.  `nestedLeaves` reads
lines one by one and keeps the tags of the elements that are open: an element ends with the tag that
it has begun with, every line is indented by two blanks for each element around it, and in the end
no element is open.

The lines of markup pass if its tags are made of letters, and the leaves that are found are its
lexemes (`Markup.nestedLeaves_lines`).  The tags of a tree are made of letters
(`Class.wellTagged_markup`).

The writer counts the elements that are open.  `Markup.visit` is the writer with this counter, and
with no result if the counter had to go below zero; that never happens, and the counter ends where
it began (`Markup.visit_eq`).
-/

namespace JackToolchain.Jack

variable {tag : String} {opened rest : List (List Char)} {l : Lexeme}

/-! ### Reading lines -/

/-- The name in front of a `>` that ends the line. -/
def tagOf? (text : List Char) : Option (List Char) :=
  if text.dropWhile Char.isAlpha = ['>'] then some (text.takeWhile Char.isAlpha) else none

/-- What a line of a tree is.  Elements come with their tags. -/
inductive LineKind where
  | opening (tag : List Char)
  | closing (tag : List Char)
  | leaf
deriving Repr, DecidableEq

/-- What a line is, by its text without indentation. -/
def LineKind.ofText : List Char → LineKind
  | '<' :: '/' :: text => (tagOf? text).elim leaf closing
  | '<' :: text => (tagOf? text).elim leaf opening
  | _ => leaf

/-- The blanks in front of a line. -/
def indentation (line : List Char) : Nat := (line.takeWhile (· == ' ')).length

/-- A line without the blanks in front of it. -/
def stripped (line : List Char) : List Char := line.dropWhile (· == ' ')

/-- The leaves of lines that stand inside the given open elements, the innermost first, and that
close all of them.  There is no result if the lines are not well nested or not indented as they
should be. -/
def nestedLeaves (opened : List (List Char)) : List (List Char) → Option (List (List Char))
  | [] => if opened = [] then some [] else none
  | line :: lines =>
    match LineKind.ofText (stripped line) with
    | .opening tag =>
      if indentation line = 2 * opened.length then nestedLeaves (tag :: opened) lines else none
    | .closing tag =>
      match opened with
      | [] => none
      | innermost :: opened =>
        if tag = innermost ∧ indentation line = 2 * opened.length then nestedLeaves opened lines
        else none
    | .leaf =>
      if indentation line = 2 * opened.length
        then (nestedLeaves opened lines).map (stripped line :: ·) else none

/-- The lines that are leaves, without indentation. -/
def leafLines (lines : List (List Char)) : List (List Char) :=
  (lines.map stripped).filter (LineKind.ofText · = .leaf)

/-- The leaves of well-nested lines are the lines that are leaves. -/
theorem leafLines_of_nestedLeaves {opened lines leaves : List (List Char)}
    (h : nestedLeaves opened lines = some leaves) : leafLines lines = leaves := by
  fun_induction nestedLeaves opened lines generalizing leaves with
  | case1 => cases h; rfl
  | case3 opened line lines tag hkind hindent ih => simpa [leafLines, hkind] using ih h
  | case6 line lines tag hkind innermost opened hclose ih => simpa [leafLines, hkind] using ih h
  | case8 opened line lines hkind hindent ih =>
    obtain ⟨inner, hinner, rfl⟩ := Option.map_eq_some_iff.mp h
    simpa [leafLines, hkind] using ih hinner
  | case2 | case4 | case5 | case7 | case9 => cases h

example : nestedLeaves [] ["<term>".toList, "  <symbol> ( </symbol>".toList, "</term>".toList] =
    some ["<symbol> ( </symbol>".toList] := by
  decide

example : nestedLeaves [] ["<term>".toList, "  <expression>".toList, "  </term>".toList,
    "</expression>".toList] = none := by
  decide

/-! ### The lines of markup -/

/-- A line inside the given number of elements. -/
def indented (depth : Nat) (line : List Char) : List Char := List.replicate (2 * depth) ' ' ++ line

/-- The line that begins an element. -/
def openingLine (tag : String) : List Char := '<' :: (tag.toList ++ ['>'])

/-- The line that ends an element. -/
def closingLine (tag : String) : List Char := '<' :: '/' :: (tag.toList ++ ['>'])

namespace Markup

mutual

/-- The lines of markup that stands inside the given number of elements. -/
def lines (depth : Nat) : Markup → List (List Char)
  | .leaf lexeme => [indented depth lexeme.element.toList]
  | .element tag children =>
    indented depth (openingLine tag) ::
      (linesAll (depth + 1) children ++ [indented depth (closingLine tag)])

/-- The lines of one piece of markup after the other. -/
def linesAll (depth : Nat) : List Markup → List (List Char)
  | [] => []
  | m :: ms => m.lines depth ++ linesAll depth ms

end

theorem toList_indent (out : String) (depth : Nat) :
    (indent out depth).toList = out.toList ++ List.replicate (2 * depth) ' ' := by
  induction depth with
  | zero => exact (List.append_nil _).symm
  | succ depth ih =>
    show (indent out depth ++ "  ").toList = _
    rw [String.toList_append, ih, List.append_assoc]
    congr 1
    exact List.replicate_append_replicate (n := 2 * depth) (m := 2)

mutual

/-- **Markup is written line by line.** -/
theorem toList_write (m : Markup) (out : String) (depth : Nat) :
    (m.write out depth).toList = out.toList ++ (m.lines depth).flatMap (· ++ ['\n']) := by
  cases m with
  | leaf lexeme => simp [write, lines, indented, toList_indent]
  | element tag children =>
    simp [write, lines, indented, openingLine, closingLine, toList_indent, toList_writeAll children]

theorem toList_writeAll (ms : List Markup) (out : String) (depth : Nat) :
    (writeAll out depth ms).toList = out.toList ++ (linesAll depth ms).flatMap (· ++ ['\n']) := by
  cases ms with
  | nil => simp [writeAll, linesAll]
  | cons m ms => simp [writeAll, linesAll, toList_writeAll ms, toList_write m]

end

/-! ### Tags -/

mutual

/-- The tags of elements are made of letters. -/
def WellTagged : Markup → Prop
  | .leaf _ => True
  | .element tag children => (∀ c ∈ tag.toList, c.isAlpha = true) ∧ WellTaggedAll children

/-- The tags of elements are made of letters, in one piece of markup after the other. -/
def WellTaggedAll : List Markup → Prop
  | [] => True
  | m :: ms => m.WellTagged ∧ WellTaggedAll ms

end

@[simp] theorem wellTagged_leaf : WellTagged (.leaf l) := trivial

@[simp] theorem wellTagged_symbol (s : Symbol) : WellTagged (.symbol s) := trivial

@[simp] theorem wellTagged_keyword (k : Keyword) : WellTagged (.keyword k) := trivial

@[simp] theorem wellTagged_element {children : List Markup} : WellTagged (.element tag children) ↔
    (∀ c ∈ tag.toList, c.isAlpha = true) ∧ WellTaggedAll children := Iff.rfl

@[simp] theorem wellTaggedAll_nil : WellTaggedAll [] := trivial

@[simp] theorem wellTaggedAll_cons {m : Markup} {ms : List Markup} :
    WellTaggedAll (m :: ms) ↔ m.WellTagged ∧ WellTaggedAll ms := Iff.rfl

@[simp] theorem wellTaggedAll_append {ms ms' : List Markup} :
    WellTaggedAll (ms ++ ms') ↔ WellTaggedAll ms ∧ WellTaggedAll ms' := by
  induction ms with
  | nil => simp
  | cons m ms ih => rw [List.cons_append, wellTaggedAll_cons, wellTaggedAll_cons, ih, and_assoc]

theorem wellTaggedAll_map {α : Type} {f : α → Markup} (h : ∀ x, (f x).WellTagged) (xs : List α) :
    WellTaggedAll (xs.map f) := by
  induction xs with
  | nil => trivial
  | cons x xs ih => exact ⟨h x, ih⟩

theorem wellTaggedAll_separated {α : Type} {f : α → List Markup} (h : ∀ x, WellTaggedAll (f x))
    (xs : List α) : WellTaggedAll (separated (xs.map f)) := by
  match xs with
  | [] => trivial
  | [x] => exact h x
  | x :: y :: xs =>
    exact wellTaggedAll_append.mpr ⟨h x, trivial, wellTaggedAll_separated h (y :: xs)⟩

end Markup

open Markup

@[simp] theorem Ident.wellTagged_markup (x : Ident) : x.markup.WellTagged := trivial

@[simp] theorem TypeName.wellTagged_markup (t : TypeName) : t.markup.WellTagged := by
  cases t <;> exact trivial

@[simp] theorem ReturnType.wellTagged_markup (t : ReturnType) : t.markup.WellTagged := by
  cases t with
  | void => exact trivial
  | value type => exact type.wellTagged_markup

mutual

theorem Term.wellTagged_markup (t : Term) : t.markup.WellTagged := by
  cases t with
  | literal value => simp [Term.markup]
  | var name => simp [Term.markup]
  | element array subscript => simp [Term.markup, subscript.wellTagged_markup]
  | call call => simp [Term.markup, call.wellTaggedAll_markup]
  | paren inner => simp [Term.markup, inner.wellTagged_markup]
  | unary op operand => simp [Term.markup, operand.wellTagged_markup]

theorem Expr.wellTagged_markup (e : Expr) : e.markup.WellTagged := by
  cases e with
  | mk head tail => simp [Expr.markup, head.wellTagged_markup, wellTaggedAll_operandsMarkup tail]

theorem wellTaggedAll_operandsMarkup (tail : List Operand) :
    WellTaggedAll (operandsMarkup tail) := by
  cases tail with
  | nil => trivial
  | cons operand rest =>
    cases operand with
    | mk op term => simp [operandsMarkup, term.wellTagged_markup, wellTaggedAll_operandsMarkup rest]

theorem Call.wellTaggedAll_markup (c : Call) : WellTaggedAll c.markup := by
  cases c with
  | mk receiver name span args =>
    cases receiver <;> simp [Call.markup, wellTaggedAll_argsMarkup args]

theorem wellTaggedAll_argsMarkup (args : List Expr) : WellTaggedAll (argsMarkup args) := by
  match args with
  | [] => trivial
  | [arg] => exact ⟨arg.wellTagged_markup, trivial⟩
  | arg :: next :: rest =>
    exact ⟨arg.wellTagged_markup, trivial, wellTaggedAll_argsMarkup (next :: rest)⟩

end

attribute [simp] Expr.wellTagged_markup Call.wellTaggedAll_markup

@[simp] theorem Expr.wellTaggedAll_conditionMarkup (e : Expr) :
    WellTaggedAll e.conditionMarkup := by
  simp [Expr.conditionMarkup]

mutual

theorem Statement.wellTagged_markup (s : Statement) : s.markup.WellTagged := by
  cases s with
  | assign target value => simp [Statement.markup]
  | assignElement array subscript value => simp [Statement.markup]
  | ifThen condition body => simp [Statement.markup, wellTaggedAll_statementsMarkup body]
  | ifElse condition body alternative =>
    simp [Statement.markup, wellTaggedAll_statementsMarkup body,
      wellTaggedAll_statementsMarkup alternative]
  | «while» condition body => simp [Statement.markup, wellTaggedAll_statementsMarkup body]
  | «do» call => simp [Statement.markup]
  | «return» value => cases value <;> simp [Statement.markup]

theorem wellTaggedAll_statementsMarkup (body : List Statement) :
    WellTaggedAll (statementsMarkup body) := by
  cases body with
  | nil => trivial
  | cons s rest => exact ⟨s.wellTagged_markup, wellTaggedAll_statementsMarkup rest⟩

end

attribute [simp] wellTaggedAll_statementsMarkup

@[simp] theorem wellTaggedAll_namesMarkup (names : List Ident) :
    WellTaggedAll (namesMarkup names) :=
  wellTaggedAll_separated (fun x => by simp) names

@[simp] theorem VarDec.wellTagged_markup (d : VarDec) : d.markup.WellTagged := by
  simp [VarDec.markup]

@[simp] theorem ClassVarDec.wellTagged_markup (d : ClassVarDec) : d.markup.WellTagged := by
  simp [ClassVarDec.markup]

@[simp] theorem Subroutine.wellTagged_markup (s : Subroutine) : s.markup.WellTagged := by
  have hparameters : WellTaggedAll
      (separated (s.parameters.map fun p => [p.type.markup, p.name.markup])) :=
    wellTaggedAll_separated (fun p => by simp) s.parameters
  simp [Subroutine.markup, hparameters, wellTaggedAll_map VarDec.wellTagged_markup]

/-- The elements of a class have tags that are made of letters. -/
theorem Class.wellTagged_markup (c : Class) : c.markup.WellTagged := by
  simp [Class.markup, wellTaggedAll_map ClassVarDec.wellTagged_markup,
    wellTaggedAll_map Subroutine.wellTagged_markup]

/-! ### The lines of markup are well nested -/

theorem indentation_indented {depth : Nat} {line : List Char} (h : line.head? = some '<') :
    indentation (indented depth line) = 2 * depth := by
  obtain ⟨rest, rfl⟩ : ∃ rest, line = '<' :: rest := List.head?_eq_some_iff.mp h
  unfold indentation indented
  rw [List.takeWhile_append_of_pos (by simp), List.takeWhile_cons_of_neg (by decide),
    List.append_nil, List.length_replicate]

theorem stripped_indented {depth : Nat} {line : List Char} (h : line.head? = some '<') :
    stripped (indented depth line) = line := by
  obtain ⟨rest, rfl⟩ : ∃ rest, line = '<' :: rest := List.head?_eq_some_iff.mp h
  unfold stripped indented
  rw [List.dropWhile_append_of_pos (by simp), List.dropWhile_cons_of_neg (by decide)]

theorem tagOf?_tag (htag : ∀ c ∈ tag.toList, c.isAlpha = true) :
    tagOf? (tag.toList ++ ['>']) = some tag.toList := by
  unfold tagOf?
  rw [List.dropWhile_append_of_pos htag, List.takeWhile_append_of_pos htag]
  exact congrArg some (List.append_nil _)

theorem ofText_closingLine (htag : ∀ c ∈ tag.toList, c.isAlpha = true) :
    LineKind.ofText (closingLine tag) = .closing tag.toList := by
  show (tagOf? (tag.toList ++ ['>'])).elim LineKind.leaf LineKind.closing = _
  rw [tagOf?_tag htag]
  rfl

/-- With letters behind it, an angle bracket does not begin the end of an element. -/
theorem ofText_tag {text : List Char} (htag : ∀ c ∈ tag.toList, c.isAlpha = true) :
    LineKind.ofText ('<' :: (tag.toList ++ '>' :: text)) =
      (tagOf? (tag.toList ++ '>' :: text)).elim .leaf .opening := by
  have hslash : (tag.toList ++ '>' :: text).head? ≠ some '/' := by
    cases h : tag.toList with
    | nil => exact fun heq => absurd (Option.some.inj heq) (by decide)
    | cons c cs =>
      rintro ⟨⟩
      rw [h] at htag
      exact absurd (htag '/' List.mem_cons_self) (by decide)
  unfold LineKind.ofText
  split
  · next heq =>
    rw [(List.cons.inj heq).2] at hslash
    exact absurd rfl hslash
  · next heq => rw [(List.cons.inj heq).2]
  · next h => exact absurd rfl (h _)

theorem ofText_openingLine (htag : ∀ c ∈ tag.toList, c.isAlpha = true) :
    LineKind.ofText (openingLine tag) = .opening tag.toList := by
  unfold openingLine
  rw [ofText_tag htag, tagOf?_tag htag]
  rfl

theorem Kind.isAlpha_of_mem_tag (k : Kind) : ∀ c ∈ k.tag.toList, c.isAlpha = true := by
  cases k <;> simp [Kind.tag]

theorem Lexeme.toList_element (l : Lexeme) : l.element.toList = '<' :: (l.kind.tag.toList ++
    '>' :: ' ' ::
      ((escaped l.contents).toList ++ (' ' :: '<' :: '/' :: (l.kind.tag.toList ++ ['>'])))) := by
  simp [element]

/-- A leaf has something behind its first tag. -/
theorem ofText_element (l : Lexeme) : LineKind.ofText l.element.toList = .leaf := by
  have htag := l.kind.isAlpha_of_mem_tag
  rw [l.toList_element, ofText_tag htag]
  unfold tagOf?
  rw [List.dropWhile_append_of_pos htag, List.dropWhile_cons_of_neg (by decide), if_neg (by simp)]
  rfl

theorem head?_element (l : Lexeme) : l.element.toList.head? = some '<' := by
  rw [l.toList_element, List.head?_cons]

theorem nestedLeaves_opening (htag : ∀ c ∈ tag.toList, c.isAlpha = true) :
    nestedLeaves opened (indented opened.length (openingLine tag) :: rest) =
      nestedLeaves (tag.toList :: opened) rest := by
  rw [nestedLeaves, stripped_indented rfl, ofText_openingLine htag]
  exact if_pos (indentation_indented rfl)

theorem nestedLeaves_closing (htag : ∀ c ∈ tag.toList, c.isAlpha = true) :
    nestedLeaves (tag.toList :: opened) (indented opened.length (closingLine tag) :: rest) =
      nestedLeaves opened rest := by
  rw [nestedLeaves, stripped_indented rfl, ofText_closingLine htag]
  exact if_pos ⟨rfl, indentation_indented rfl⟩

theorem nestedLeaves_leaf :
    nestedLeaves opened (indented opened.length l.element.toList :: rest) =
      (nestedLeaves opened rest).map (l.element.toList :: ·) := by
  rw [nestedLeaves, stripped_indented (head?_element l), ofText_element]
  exact if_pos (indentation_indented (head?_element l))

namespace Markup

mutual

/-- **The lines of markup are well nested**, and their leaves are its lexemes.  Whatever is open
around them stays open. -/
theorem nestedLeaves_lines {m : Markup} (hm : m.WellTagged) (opened rest : List (List Char)) :
    nestedLeaves opened (m.lines opened.length ++ rest) =
      (nestedLeaves opened rest).map (m.lexemes.map (·.element.toList) ++ ·) := by
  cases m with
  | leaf l => exact nestedLeaves_leaf
  | element tag children =>
    obtain ⟨htag, hchildren⟩ := hm
    have hinner := nestedLeaves_linesAll hchildren (tag.toList :: opened)
      (indented opened.length (closingLine tag) :: rest)
    rw [nestedLeaves_closing htag] at hinner
    rw [lines, List.cons_append, nestedLeaves_opening htag, List.append_assoc]
    exact hinner

theorem nestedLeaves_linesAll {ms : List Markup} (hms : WellTaggedAll ms)
    (opened rest : List (List Char)) : nestedLeaves opened (linesAll opened.length ms ++ rest) =
      (nestedLeaves opened rest).map ((lexemesAll ms).map (·.element.toList) ++ ·) := by
  cases ms with
  | nil => exact Option.map_id'.symm
  | cons m ms =>
    obtain ⟨hm, hms⟩ := hms
    rw [linesAll, List.append_assoc, nestedLeaves_lines hm, nestedLeaves_linesAll hms,
      Option.map_map, lexemesAll, List.map_append]
    congr 1
    funext leaves
    exact (List.append_assoc _ _ _).symm

end

/-! ### The counter of the writer -/

/-- The text that has been written, and the number of elements that are open. -/
structure Writer where
  out : String
  depth : Nat

namespace Writer

/-- Begins an element. -/
def begun (w : Writer) (tag : String) : Writer :=
  ⟨indent w.out w.depth ++ "<" ++ tag ++ ">\n", w.depth + 1⟩

/-- Ends an element; there must be one. -/
def ended? (w : Writer) (tag : String) : Option Writer :=
  match w.depth with
  | 0 => none
  | depth + 1 => some ⟨indent w.out depth ++ "</" ++ tag ++ ">\n", depth⟩

/-- Writes a leaf. -/
def written (w : Writer) (l : Lexeme) : Writer :=
  ⟨indent w.out w.depth ++ l.element ++ "\n", w.depth⟩

end Writer

mutual

/-- Writes markup and counts the open elements. -/
def visit (w : Writer) : Markup → Option Writer
  | .leaf l => some (w.written l)
  | .element tag children => (visitAll (w.begun tag) children).bind (·.ended? tag)

/-- Writes one piece of markup after the other and counts the open elements. -/
def visitAll (w : Writer) : List Markup → Option Writer
  | [] => some w
  | m :: ms => (m.visit w).bind (visitAll · ms)

end

mutual

/-- **The counter does not go below zero and ends where it began**, and the text is the one that
markup is written as. -/
theorem visit_eq (m : Markup) (w : Writer) : m.visit w = some ⟨m.write w.out w.depth, w.depth⟩ := by
  cases m with
  | leaf l => rfl
  | element tag children =>
    rw [visit, visitAll_eq children]
    rfl

theorem visitAll_eq (ms : List Markup) (w : Writer) :
    visitAll w ms = some ⟨writeAll w.out w.depth ms, w.depth⟩ := by
  cases ms with
  | nil => rfl
  | cons m ms =>
    rw [visitAll, visit_eq m, Option.bind_some, visitAll_eq ms]
    rfl

end

end Markup

end JackToolchain.Jack
