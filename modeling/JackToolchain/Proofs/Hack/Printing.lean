import Mathlib.Data.List.TakeWhile
import JackToolchain.Hack.Assembler
import JackToolchain.Proofs.Text.Characters
import JackToolchain.Proofs.Text.Decimal

/-!
# Printed lines are read as what they say

A program in the making is a list of lines, and its text is assembled.  The text has a line of
tokens for each line of the list, and an empty one at its end; a line that is printed is read as its
statement (`Line.isRead_of_printable`), provided that the names in it are symbols and that comments
have no line breaks.  A constant that no instruction can load is printed like others, and is an
error then.
-/

namespace JackToolchain.Hack

/-! ### Symbols -/

/-- A name that is read as one symbol. -/
def IsSymbol (name : String) : Prop :=
  ∃ x xs, name.toList = x :: xs ∧ isSymbolStart x = true ∧ ∀ c ∈ xs, isSymbolPart c = true

/-- A line whose text is read as the line. -/
def Line.Printable : Line → Prop
  | .comment text => ∀ c ∈ text.toList, isNewline c = false
  | .statement (.label name) => IsSymbol name
  | .statement (.load (.symbol name)) => IsSymbol name
  | .statement (.load (.constant _)) => True
  | .statement (.compute _) => True

/-- The characters of an instruction. -/
def isInstructionChar (c : Char) : Bool :=
  isSymbolPart c || ((TokenKind.ofChar? c).map TokenKind.isInstructionPart).getD false

/-- A character of a symbol is no token by itself, and no gap begins with it. -/
theorem of_isSymbolPart {x : Char} (hx : isSymbolPart x = true) :
    TokenKind.ofChar? x = none ∧ isBlank x = false ∧ x ≠ '/' ∧ x ≠ '\r' ∧ x ≠ '\n' := by
  refine ⟨?_, ?_, ?_, ?_, ?_⟩
  · unfold TokenKind.ofChar?
    split <;> first | rfl | exact absurd hx (by decide)
  · unfold isBlank
    simp only [Bool.or_eq_false_iff, beq_eq_false_iff_ne]
    refine ⟨⟨⟨?_, ?_⟩, ?_⟩, ?_⟩ <;> rintro rfl <;> exact absurd hx (by decide)
  all_goals
    rintro rfl
    exact absurd hx (by decide)

theorem not_newline_of_isSymbolPart {x : Char} (hx : isSymbolPart x = true) :
    isNewline x = false := by
  obtain ⟨-, -, -, hreturn, hfeed⟩ := of_isSymbolPart hx
  simp [isNewline, hreturn, hfeed]

theorem isSymbolPart_of_isSymbolStart {x : Char} (hx : isSymbolStart x = true) :
    isSymbolPart x = true := by
  unfold isSymbolPart
  rw [hx]
  rfl

theorem isSymbolPart_of_isDigit {x : Char} (hx : x.isDigit = true) : isSymbolPart x = true := by
  unfold isSymbolPart
  rw [hx, Bool.or_true]

theorem isSymbolStart_of_isDigit {x : Char} (hx : x.isDigit = true) : isSymbolStart x = false := by
  have halpha : x.isAlpha = false := by
    unfold Char.isDigit at hx
    unfold Char.isAlpha Char.isUpper Char.isLower
    simp only [Bool.and_eq_true, decide_eq_true_eq, Bool.or_eq_false_iff, Bool.and_eq_false_iff,
      decide_eq_false_iff_not, ge_iff_le, UInt32.le_iff_toNat_le, Char.reduceVal,
      UInt32.reduceToNat] at hx ⊢
    omega
  unfold isSymbolStart
  rw [halpha]
  simp only [Bool.or_eq_false_iff, beq_eq_false_iff_ne, Bool.false_or]
  refine ⟨⟨⟨?_, ?_⟩, ?_⟩, ?_⟩ <;> rintro rfl <;> exact absurd hx (by decide)

/-! ### Tokens of a stretch -/

namespace Cursor

variable {c d : Cursor} {ts ts' : List Token} {t : Token} {rest : List Char} {offset : Nat}

/-- Reading tokens, none of which is the end of the file, leads from one cursor to another. -/
inductive Passes : Cursor → List Token → Cursor → Prop
  | nil (c : Cursor) : Passes c [] c
  | cons {c c' d : Cursor} {t : Token} {ts : List Token} : c.next = (t, c') → t.kind ≠ .endOfFile →
      Passes c' ts d → Passes c (t :: ts) d

theorem Passes.append {c' : Cursor} (h : Passes c ts c') (h' : Passes c' ts' d) :
    Passes c (ts ++ ts') d := by
  induction h with
  | nil => exact h'
  | cons hnext hkind _ ih => exact .cons hnext hkind (ih h')

theorem Passes.single (h : c.next = (t, d)) (ht : t.kind ≠ .endOfFile) : Passes c [t] d :=
  .cons h ht (.nil _)

theorem tokensFrom_of_passes {done : List Token} (h : Passes c ts d) :
    tokensFrom done c = tokensFrom (ts.reverse ++ done) d := by
  induction h generalizing done with
  | nil => rfl
  | cons hnext hkind _ ih =>
    rw [tokensFrom, hnext, dif_neg fun h => hkind h.1, ih, List.reverse_cons, List.append_assoc]
    rfl

/-- Where neither a blank nor a comment begins, the next token begins. -/
theorem next_of_not_gap {x : Char} (hblank : isBlank x = false) (hslash : x ≠ '/') :
    next ⟨x :: rest, offset⟩ = tokenHere ⟨x :: rest, offset⟩ := by
  have hskip : skipWhile ⟨x :: rest, offset⟩ isBlank = ⟨x :: rest, offset⟩ := by
    unfold skipWhile
    rw [List.dropWhile_cons_of_neg (by simpa using hblank),
      List.takeWhile_cons_of_neg (by simpa using hblank)]
    rfl
  unfold next skipGap
  rw [hskip]
  dsimp only
  split
  · next h => exact absurd (List.cons.inj h).1 hslash
  · rfl

theorem takeWhile_append_stop {p : Char → Bool} {xs : List Char} {y : Char} (hy : p y = false) :
    (xs ++ y :: rest).takeWhile p = xs.takeWhile p := by
  induction xs with
  | nil => simp [hy]
  | cons x xs ih => simp only [List.cons_append, List.takeWhile_cons, ih]

theorem dropWhile_append_stop {p : Char → Bool} {xs : List Char} {y : Char} (hy : p y = false) :
    (xs ++ y :: rest).dropWhile p = xs.dropWhile p ++ y :: rest := by
  induction xs with
  | nil => simp [hy]
  | cons x xs ih =>
    simp only [List.cons_append, List.dropWhile_cons, ih]
    split <;> rfl

variable (rest offset)

/-- A character that is a token by itself. -/
theorem passes_char {x : Char} {kind : TokenKind} (hx : TokenKind.ofChar? x = some kind)
    (hblank : isBlank x = false) (hslash : x ≠ '/') (hreturn : x ≠ '\r')
    (hkind : kind ≠ .endOfFile) :
    ∃ t offset', Passes ⟨x :: rest, offset⟩ [t] ⟨rest, offset'⟩ ∧ t.kind = kind ∧
      t.text = String.ofList [x] := by
  have hnext : next ⟨x :: rest, offset⟩ = token ⟨x :: rest, offset⟩ kind [x] rest := by
    rw [next_of_not_gap hblank hslash]
    unfold tokenHere
    split
    · next h => cases h
    · next h => exact absurd (List.cons.inj h).1 hreturn
    · next h =>
      obtain ⟨rfl, rfl⟩ := List.cons.inj h
      rw [hx]
  exact ⟨_, _, .single hnext hkind, rfl, rfl⟩

/-- Where the character of a symbol is read, a symbol or a number begins. -/
theorem next_of_isSymbolPart {x : Char} (hx : isSymbolPart x = true) :
    next ⟨x :: rest, offset⟩ =
      if isSymbolStart x then
        token ⟨x :: rest, offset⟩ .symbol (x :: rest.takeWhile isSymbolPart)
          (rest.dropWhile isSymbolPart)
      else token ⟨x :: rest, offset⟩ .number (x :: rest.takeWhile Char.isDigit)
        (rest.dropWhile Char.isDigit) := by
  obtain ⟨hchar, hblank, hslash, hreturn, -⟩ := of_isSymbolPart hx
  rw [next_of_not_gap hblank hslash]
  unfold tokenHere
  split
  · next h => cases h
  · next h => exact absurd (List.cons.inj h).1 hreturn
  · next h =>
    obtain ⟨rfl, rfl⟩ := List.cons.inj h
    rw [hchar]
    dsimp only
    by_cases hstart : isSymbolStart x = true
    · rw [if_pos hstart, if_pos hstart]
    · have hdigit : x.isDigit = true := by
        unfold isSymbolPart at hx
        rwa [Bool.eq_false_iff.mpr hstart, Bool.false_or] at hx
      rw [if_neg hstart, if_neg hstart, if_pos hdigit]

/-- A symbol, up to a character that is no part of it. -/
theorem passes_symbol {name : String} {y : Char} (hname : IsSymbol name)
    (hy : isSymbolPart y = false) :
    ∃ t offset', Passes ⟨name.toList ++ y :: rest, offset⟩ [t] ⟨y :: rest, offset'⟩ ∧
      t.kind = .symbol ∧ t.text = name := by
  obtain ⟨x, xs, hlist, hx, hxs⟩ := hname
  have hnext : next ⟨name.toList ++ y :: rest, offset⟩ =
      token ⟨name.toList ++ y :: rest, offset⟩ .symbol name.toList (y :: rest) := by
    rw [hlist, List.cons_append, next_of_isSymbolPart _ _ (isSymbolPart_of_isSymbolStart hx),
      if_pos hx, takeWhile_append_stop hy, dropWhile_append_stop hy,
      List.takeWhile_eq_self_iff.mpr hxs, List.dropWhile_eq_nil_iff.mpr hxs]
    rfl
  exact ⟨_, _, .single hnext nofun, rfl, String.ofList_toList⟩

/-- A number, up to a character that is no part of it. -/
theorem passes_number {n : Nat} {y : Char} (hy : y.isDigit = false) :
    ∃ t offset', Passes ⟨(toString n).toList ++ y :: rest, offset⟩ [t] ⟨y :: rest, offset'⟩ ∧
      t.kind = .number ∧ t.text = toString n := by
  have hdigits : ∀ c ∈ (toString n).toList, c.isDigit = true :=
    fun c => Text.isDigit_of_mem_toString
  obtain ⟨x, xs, hlist⟩ := List.exists_cons_of_ne_nil (Text.toList_toString_ne_nil n)
  have hnext : next ⟨(toString n).toList ++ y :: rest, offset⟩ =
      token ⟨(toString n).toList ++ y :: rest, offset⟩ .number (toString n).toList (y :: rest) := by
    rw [hlist, List.forall_mem_cons] at hdigits
    obtain ⟨hx, hxs⟩ := hdigits
    rw [hlist, List.cons_append, next_of_isSymbolPart _ _ (isSymbolPart_of_isDigit hx),
      if_neg (Bool.eq_false_iff.mp (isSymbolStart_of_isDigit hx)), takeWhile_append_stop hy,
      dropWhile_append_stop hy, List.takeWhile_eq_self_iff.mpr hxs,
      List.dropWhile_eq_nil_iff.mpr hxs]
    rfl
  exact ⟨_, _, .single hnext nofun, rfl, String.ofList_toList⟩

/-- The first token of an instruction. -/
theorem passes_instructionToken {x : Char} {xs : List Char}
    (htext : ∀ c ∈ x :: xs, isInstructionChar c = true) :
    ∃ t xs₁ xs₂ offset', Passes ⟨x :: xs ++ '\n' :: rest, offset⟩
      [t] ⟨xs₂ ++ '\n' :: rest, offset'⟩ ∧
      t.kind.isInstructionPart = true ∧ t.text = String.ofList (x :: xs₁) ∧ xs₁ ++ xs₂ = xs := by
  obtain ⟨hx, hxs⟩ := List.forall_mem_cons.mp htext
  by_cases hpart : isSymbolPart x = true
  · have hnext := next_of_isSymbolPart (xs ++ '\n' :: rest) offset hpart
    split at hnext
    · rw [takeWhile_append_stop (by decide), dropWhile_append_stop (by decide)] at hnext
      exact ⟨_, _, _, _, .single hnext nofun, rfl, rfl, List.takeWhile_append_dropWhile⟩
    · rw [takeWhile_append_stop (by decide), dropWhile_append_stop (by decide)] at hnext
      exact ⟨_, _, _, _, .single hnext nofun, rfl, rfl, List.takeWhile_append_dropWhile⟩
  · unfold isInstructionChar at hx
    rw [Bool.eq_false_iff.mpr hpart, Bool.false_or] at hx
    cases hkind : TokenKind.ofChar? x with
    | none =>
      rw [hkind] at hx
      cases hx
    | some kind =>
      rw [hkind] at hx
      replace hx : kind.isInstructionPart = true := hx
      have hgap : isBlank x = false ∧ x ≠ '/' ∧ x ≠ '\r' := by
        refine ⟨?_, ?_, ?_⟩
        · unfold isBlank
          simp only [Bool.or_eq_false_iff, beq_eq_false_iff_ne]
          refine ⟨⟨⟨?_, ?_⟩, ?_⟩, ?_⟩ <;> rintro rfl <;> cases hkind
        · rintro rfl
          cases hkind
        · rintro rfl
          cases hkind
          cases hx
      have hend : kind ≠ .endOfFile := by
        rintro rfl
        cases hx
      obtain ⟨t, offset', hpasses, rfl, htoken⟩ :=
        passes_char (xs ++ '\n' :: rest) offset hkind hgap.1 hgap.2.1 hgap.2.2 hend
      exact ⟨t, [], xs, offset', hpasses, hx, htoken, rfl⟩

/-- The characters of an instruction, up to the end of the line. -/
theorem passes_instruction {text : List Char} (htext : ∀ c ∈ text, isInstructionChar c = true) :
    ∃ ts offset', Passes ⟨text ++ '\n' :: rest, offset⟩ ts ⟨'\n' :: rest, offset'⟩ ∧
      (∀ t ∈ ts, t.kind.isInstructionPart = true) ∧ ts.flatMap (·.text.toList) = text := by
  induction hn : text.length using Nat.strongRecOn generalizing text offset with
  | ind n ih =>
    subst hn
    cases text with
    | nil => exact ⟨[], offset, .nil _, fun t ht => absurd ht List.not_mem_nil, rfl⟩
    | cons x xs =>
      obtain ⟨t, xs₁, xs₂, offset₁, hfirst, hkind, ht, rfl⟩ :=
        passes_instructionToken rest offset htext
      have htext' : ∀ c ∈ xs₂, isInstructionChar c = true := fun c hc =>
        htext c (List.mem_cons_of_mem _ (List.mem_append_right _ hc))
      have hless : xs₂.length < (x :: (xs₁ ++ xs₂)).length := by
        rw [List.length_cons, List.length_append]
        omega
      obtain ⟨ts, offset₂, hrest, hkinds, hts⟩ := ih _ hless offset₁ htext' rfl
      refine ⟨t :: ts, offset₂, hfirst.append hrest, List.forall_mem_cons.mpr ⟨hkind, hkinds⟩, ?_⟩
      rw [List.flatMap_cons, hts, ht, String.toList_ofList, List.cons_append]

end Cursor

/-! ### Instructions -/

theorem splitAtChar_of_notMem {c : Char} {xs : List Char} (h : c ∉ xs) :
    splitAtChar c xs = none := by
  have hdrop : xs.dropWhile (· != c) = [] := by
    rw [List.dropWhile_eq_nil_iff]
    intro x hx
    rw [bne_iff_ne]
    rintro rfl
    exact h hx
  unfold splitAtChar
  rw [hdrop]

theorem splitAtChar_of_append {c : Char} {xs ys : List Char} (h : c ∉ xs) :
    splitAtChar c (xs ++ c :: ys) = some (xs, ys) := by
  have hall : ∀ x ∈ xs, (x != c) = true := by
    intro x hx
    rw [bne_iff_ne]
    rintro rfl
    exact h hx
  unfold splitAtChar
  rw [Cursor.dropWhile_append_stop (p := (· != c)) (bne_self_eq_false c),
    Cursor.takeWhile_append_stop (p := (· != c)) (bne_self_eq_false c),
    List.dropWhile_eq_nil_iff.mpr hall, List.takeWhile_eq_self_iff.mpr hall]
  rfl

theorem Dest.eq_or_mem_all (x : Dest) : x = {} ∨ (x.text.isEmpty = false ∧ x ∈ all) := by
  obtain ⟨a, d, m⟩ := x
  revert a d m
  decide

theorem Dest.notMem_text (x : Dest) : '=' ∉ x.text.toList := by
  obtain ⟨a, d, m⟩ := x
  revert a d m
  decide

theorem Comp.notMem_text (comp : Comp) : '=' ∉ comp.text.toList ∧ ';' ∉ comp.text.toList := by
  cases comp <;> decide

theorem Jump.notMem_text (j : Jump) : '=' ∉ j.text.toList := by
  cases j <;> decide

namespace Instruction

/-- The text of a jump, with the sign before it. -/
def jumpText : Option Jump → List Char
  | none => []
  | some j => ';' :: j.text.toList

theorem text_eq (i : Instruction) :
    i.text.toList = (if i.dest.text.isEmpty then [] else i.dest.text.toList ++ ['='])
      ++ i.comp.text.toList ++ jumpText i.jump := by
  unfold text jumpText
  rw [String.toList_append, String.toList_append]
  congr 1
  · congr 1
    split
    · rfl
    · rw [String.toList_append]
      rfl
  · cases i.jump with
    | none => rfl
    | some j =>
      show (";" ++ j.text).toList = _
      rw [String.toList_append]
      rfl

/-- An instruction is read as it is printed. -/
theorem ofText_text (i : Instruction) : ofText i.text.toList = .ok i := by
  obtain ⟨dest, comp, jump⟩ := i
  obtain ⟨hcomp, hcomp'⟩ := comp.notMem_text
  have hrest : '=' ∉ comp.text.toList ++ jumpText jump := by
    rw [List.mem_append, not_or]
    refine ⟨hcomp, ?_⟩
    cases jump with
    | none => exact List.not_mem_nil
    | some j =>
      intro h
      rcases List.mem_cons.mp h with h | h
      · cases h
      · exact j.notMem_text h
  have hsemicolon : splitAtChar ';' (comp.text.toList ++ jumpText jump) =
      jump.map fun j => (comp.text.toList, j.text.toList) := by
    cases jump with
    | none =>
      rw [jumpText, List.append_nil]
      exact splitAtChar_of_notMem hcomp'
    | some j => exact splitAtChar_of_append hcomp'
  rw [text_eq]
  dsimp only
  rcases dest.eq_or_mem_all with rfl | ⟨hempty, hmem⟩
  · have hempty : ({} : Dest).text.isEmpty = true := by decide
    rw [if_pos hempty, List.nil_append]
    unfold ofText
    rw [splitAtChar_of_notMem hrest]
    dsimp only
    rw [hsemicolon]
    cases jump <;> simp [jumpText, Comp.ofText?_text, Jump.ofText?_text, pure, bind, Except.pure,
      Except.bind]
  · rw [hempty, if_neg Bool.false_ne_true, List.append_assoc, List.append_assoc]
    unfold ofText
    rw [List.singleton_append, splitAtChar_of_append dest.notMem_text]
    dsimp only
    rw [hsemicolon]
    cases jump <;>
      simp [jumpText, Comp.ofText?_text, Jump.ofText?_text, Dest.ofText?_text hmem, pure, bind,
        Except.pure, Except.bind]
/-- The characters of a printed instruction. -/
theorem isInstructionChar_of_mem_text (i : Instruction) :
    ∀ c ∈ i.text.toList, isInstructionChar c = true := by
  have hdest (x : Dest) : ∀ c ∈ x.text.toList ++ ['='], isInstructionChar c = true := by
    rw [← List.all_eq_true]
    obtain ⟨a, d, m⟩ := x
    revert a d m
    decide
  have hcomp (x : Comp) : ∀ c ∈ x.text.toList, isInstructionChar c = true := by
    rw [← List.all_eq_true]
    cases x <;> decide
  have hjump (x : Option Jump) : ∀ c ∈ jumpText x, isInstructionChar c = true := by
    rw [← List.all_eq_true]
    rcases x with _ | j
    · decide
    · cases j <;> decide
  rw [text_eq]
  simp only [List.forall_mem_append]
  refine ⟨⟨?_, hcomp _⟩, hjump _⟩
  split
  · exact fun c hc => absurd hc List.not_mem_nil
  · exact hdest _

theorem text_ne_nil (i : Instruction) : i.text.toList ≠ [] := by
  have hcomp : i.comp.text.toList ≠ [] := by
    cases i.comp <;> decide
  rw [text_eq]
  exact List.append_ne_nil_of_left_ne_nil (List.append_ne_nil_of_right_ne_nil _ hcomp) _

end Instruction
/-! ### Lines -/

/-- Whether a statement can be read, as far as its constants are concerned. -/
def Statement.InRange : Statement → Prop
  | .load (.constant n) => n ≤ maxConstant
  | _ => True

instance (s : Statement) : Decidable s.InRange := by
  unfold Statement.InRange
  split <;> infer_instance

/-- What comes of reading a line. -/
def Line.ReadAs (result : Except Located (Option LocatedStatement)) : Line → Prop
  | .comment _ => result = .ok none
  | .statement s => if s.InRange then ∃ span, result = .ok (some ⟨s, span⟩)
    else ∃ e, result = .error e

/-- The tokens of a line. -/
structure Line.TokenizedAs (l : Line) (ts : List Token) (stop : Token) : Prop where
  body : ∀ t ∈ ts, t.kind.endsLine = false
  ending : stop.kind = .newline
  read (size : Nat) : l.ReadAs ((⟨ts, stop⟩ : TokenLine).read size)

section
variable (rest : List Char) (offset : Nat)

open Cursor

/-- The end of a line. -/
theorem passes_newline : ∃ stop offset', Passes ⟨'\n' :: rest, offset⟩ [stop] ⟨rest, offset'⟩ ∧
    stop.kind = .newline := by
  obtain ⟨t, offset', hpasses, hkind, -⟩ :=
    passes_char (x := '\n') rest offset rfl (by decide) (by decide)
    (by decide) (by decide)
  exact ⟨t, offset', hpasses, hkind⟩

/-- A comment is skipped with the end of its line in view. -/
theorem next_comment {text : List Char} (htext : ∀ c ∈ text, isNewline c = false) :
    ∃ offset', next ⟨'/' :: '/' :: text ++ '\n' :: rest, offset⟩ =
      next ⟨'\n' :: rest, offset'⟩ := by
  have hall : ∀ c ∈ '/' :: '/' :: text, (fun c => !isNewline c) c = true := by
    intro c hc
    rcases List.mem_cons.mp hc with rfl | hc
    · decide
    rcases List.mem_cons.mp hc with rfl | hc
    · decide
    · simp [htext c hc]
  have hblank : skipWhile ⟨'/' :: '/' :: text ++ '\n' :: rest, offset⟩ isBlank =
      ⟨'/' :: '/' :: text ++ '\n' :: rest, offset⟩ := rfl
  have hskip : ∃ offset',
      skipWhile ⟨'/' :: '/' :: text ++ '\n' :: rest, offset⟩ (fun c => !isNewline c) =
      ⟨'\n' :: rest, offset'⟩ := by
    unfold skipWhile
    rw [dropWhile_append_stop (p := fun c => !isNewline c) (y := '\n') (by decide),
      List.dropWhile_eq_nil_iff.mpr hall]
    exact ⟨_, rfl⟩
  obtain ⟨offset', hskip⟩ := hskip
  refine ⟨offset', ?_⟩
  rw [next_of_not_gap (x := '\n') (by decide) (by decide)]
  unfold next skipGap
  rw [hblank]
  dsimp only [List.cons_append] at hskip ⊢
  rw [hskip]
  rfl

/-- Wherever a line is printed, it is read as what it says. -/
def Line.IsRead (l : Line) : Prop :=
  ∀ (rest : List Char) (offset : Nat), ∃ ts stop offset',
    Passes ⟨l.text.toList ++ '\n' :: rest, offset⟩ (ts ++ [stop]) ⟨rest, offset'⟩ ∧
    l.TokenizedAs ts stop

theorem isRead_comment {text : String} (htext : ∀ c ∈ text.toList, isNewline c = false) :
    (Line.comment text).IsRead := by
  intro rest offset
  have hlist : (Line.comment text).text.toList = '/' :: '/' :: ' ' :: text.toList := by
    show ("// " ++ text).toList = _
    rw [String.toList_append]
    rfl
  have hcomment : ∀ c ∈ ' ' :: text.toList, isNewline c = false :=
    List.forall_mem_cons.mpr ⟨by decide, htext⟩
  obtain ⟨offset₁, hnext⟩ := next_comment rest offset hcomment
  obtain ⟨stop, offset₂, hpasses, hstop⟩ := passes_newline rest offset₁
  rw [hlist]
  refine ⟨[], stop, offset₂, ?_, fun t ht => absurd ht List.not_mem_nil, hstop, fun size => ?_⟩
  · cases hpasses with
    | cons hnext' hkind hrest => exact .cons (hnext.trans hnext') hkind hrest
  · unfold TokenLine.read
    dsimp only
    rw [if_neg fun h => absurd (hstop.symm.trans h.1) (by decide)]
    rfl

theorem isRead_label {name : String} (hname : IsSymbol name) :
    (Line.statement (.label name)).IsRead := by
  intro rest offset
  have htext : (Line.statement (.label name)).text.toList ++ '\n' :: rest =
      '(' :: (name.toList ++ ')' :: '\n' :: rest) := by
    show ("(" ++ name ++ ")").toList ++ _ = _
    rw [String.toList_append, String.toList_append]
    simp
  obtain ⟨⟨_, _, _⟩, offset₁, hopen, rfl, rfl⟩ := passes_char (x := '(')
    (name.toList ++ ')' :: '\n' :: rest) offset rfl (by decide) (by decide) (by decide) (by decide)
  obtain ⟨⟨_, _, span⟩, offset₂, hsymbol, rfl, rfl⟩ := passes_symbol (y := ')')
    ('\n' :: rest) offset₁ hname (by decide)
  obtain ⟨⟨_, _, _⟩, offset₃, hclose, rfl, rfl⟩ := passes_char (x := ')')
    ('\n' :: rest) offset₂ rfl (by decide) (by decide) (by decide) (by decide)
  obtain ⟨stop, offset₄, hend, hstop⟩ := passes_newline rest offset₃
  rw [htext]
  refine ⟨_, stop, offset₄, (hopen.append (hsymbol.append hclose)).append hend, ?_, hstop,
    fun size => ?_⟩
  · simp [TokenKind.endsLine]
  · exact ⟨span, rfl⟩

/-- The token of an operand. -/
theorem passes_operand (o : Operand) (ho : (Line.statement (.load o)).Printable) :
    ∃ t offset', Passes ⟨o.text.toList ++ '\n' :: rest, offset⟩ [t] ⟨'\n' :: rest, offset'⟩ ∧
      t.kind.endsLine = false ∧
        if (Statement.load o).InRange then TokenLine.readOperand t = .ok o
        else ∃ e, TokenLine.readOperand t = .error e := by
  cases o with
  | symbol name =>
    obtain ⟨⟨_, _, _⟩, offset', hpasses, rfl, rfl⟩ :=
      passes_symbol (y := '\n') rest offset ho (by decide)
    exact ⟨_, offset', hpasses, rfl, rfl⟩
  | constant n =>
    obtain ⟨⟨_, _, _⟩, offset', hpasses, rfl, rfl⟩ := passes_number (n := n) (y := '\n') rest offset
      (by decide)
    refine ⟨_, offset', hpasses, rfl, ?_⟩
    unfold TokenLine.readOperand Statement.InRange
    dsimp only
    rw [Text.decimalValue_toString]
    split
    · rfl
    · exact ⟨_, rfl⟩

theorem isRead_load {o : Operand} (ho : (Line.statement (.load o)).Printable) :
    (Line.statement (.load o)).IsRead := by
  intro rest offset
  have htext : (Line.statement (.load o)).text.toList ++ '\n' :: rest =
      '@' :: (o.text.toList ++ '\n' :: rest) := by
    show ("@" ++ o.text).toList ++ _ = _
    rw [String.toList_append]
    simp
  obtain ⟨⟨_, _, _⟩, offset₁, hat, rfl, rfl⟩ := passes_char (x := '@')
    (o.text.toList ++ '\n' :: rest) offset rfl (by decide) (by decide) (by decide) (by decide)
  obtain ⟨t, offset₂, hoperand, hkind, hread⟩ := passes_operand rest offset₁ o ho
  obtain ⟨stop, offset₃, hend, hstop⟩ := passes_newline rest offset₂
  rw [htext]
  refine ⟨_, stop, offset₃, (hat.append hoperand).append hend, ?_, hstop, fun size => ?_⟩
  · exact List.forall_mem_cons.mpr ⟨rfl, List.forall_mem_singleton.mpr hkind⟩
  · unfold Line.ReadAs
    dsimp only [TokenLine.read, List.cons_append, List.nil_append, TokenLine.readLoad,
      TokenLine.firstOf]
    by_cases hrange : (Statement.load o).InRange
    · rw [if_pos hrange] at hread ⊢
      rw [hread]
      exact ⟨_, rfl⟩
    · rw [if_neg hrange] at hread ⊢
      obtain ⟨e, he⟩ := hread
      rw [he]
      exact ⟨e, rfl⟩

theorem isRead_compute (i : Instruction) : (Line.statement (.compute i)).IsRead := by
  intro rest offset
  obtain ⟨ts, offset₁, hbody, hkinds, htexts⟩ := passes_instruction rest offset
    i.isInstructionChar_of_mem_text
  obtain ⟨stop, offset₂, hend, hstop⟩ := passes_newline rest offset₁
  refine ⟨ts, stop, offset₂, hbody.append hend, fun t ht => ?_, hstop, fun size => ?_⟩
  · have hkind := hkinds t ht
    cases hk : t.kind <;> rw [hk] at hkind <;> first | rfl | cases hkind
  · cases ts with
    | nil => exact absurd htexts.symm i.text_ne_nil
    | cons t ts =>
      have hfind : (t :: ts).find? (fun x => !x.kind.isInstructionPart) = none := by
        rw [List.find?_eq_none]
        intro x hx
        simp [hkinds x hx]
      have hread : TokenLine.read size ⟨t :: ts, stop⟩ = some <$> TokenLine.readCompute t ts := by
        have hkind := hkinds t List.mem_cons_self
        unfold TokenLine.read
        dsimp only
        split <;> next hk => first | rfl | (rw [hk] at hkind; cases hkind)
      rw [hread]
      unfold TokenLine.readCompute
      rw [hfind]
      dsimp only
      rw [htexts, i.ofText_text]
      exact ⟨_, rfl⟩

/-- **A printed line is read as what it says.** -/
theorem Line.isRead_of_printable : (l : Line) → l.Printable → l.IsRead
  | .comment _, h => isRead_comment h
  | .statement (.label _), h => isRead_label h
  | .statement (.load _), h => isRead_load h
  | .statement (.compute i), _ => isRead_compute i

end

end JackToolchain.Hack
