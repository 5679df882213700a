import JackToolchain.Proofs.Text.Lines
import JackToolchain.Proofs.VM.Listing

/-!
# Commands are read as they are written

The text of a command is its words with spaces between them.  The words are read as the command
again (`ofWords_words`), and they are the words of the text if the names among them are names
(`IsName`): if they are not empty, have no blanks in them, and no two slashes in a row, which would
begin a comment.

All names in a command that has been read from words are among these words (`mem_of_mem_names`), so
a command that has been read from a line is read from its own text, too (`ofText_text`).
-/

namespace JackToolchain.Text

/-- A character that goes on with a word of a line. -/
def IsWordPart (c : Char) : Prop := isBlank c = false ∧ c ≠ '/'

instance (c : Char) : Decidable (IsWordPart c) := inferInstanceAs (Decidable (_ ∧ _))

/-- One word of a line. -/
def IsWord (word : List Char) : Prop := word ≠ [] ∧ ∀ c ∈ word, IsWordPart c

instance (word : List Char) : Decidable (IsWord word) := inferInstanceAs (Decidable (_ ∧ _))

/-- A name that may stand in a line. -/
structure IsName (name : List Char) : Prop extends IsRun name where
  noComment : NoComment name

variable {word : List Char} {ws : List (List Char)}

theorem IsWord.isName (h : IsWord word) : IsName word where
  ne_nil := h.1
  not_blank := fun c hc => (h.2 c hc).1
  noComment := noComment_of_notMem fun hslash => (h.2 _ hslash).2 rfl

theorem forall_mem_spaced {P : Char → Prop} (hspace : P ' ') (h : ∀ word ∈ ws, ∀ c ∈ word, P c) :
    ∀ c ∈ spaced ws, P c := by
  fun_induction spaced ws with
  | case1 => exact fun c hc => absurd hc List.not_mem_nil
  | case2 word => exact h word List.mem_cons_self
  | case3 word rest _ ih =>
    obtain ⟨hword, hrest⟩ := List.forall_mem_cons.mp h
    exact List.forall_mem_append.mpr ⟨hword, List.forall_mem_cons.mpr ⟨hspace, ih hrest⟩⟩

/-- The spaces between words keep slashes apart. -/
theorem noComment_spaced (h : ∀ word ∈ ws, NoComment word) : NoComment (spaced ws) := by
  fun_induction spaced ws with
  | case1 => exact noComment_of_notMem List.not_mem_nil
  | case2 word => exact h word List.mem_cons_self
  | case3 word rest _ ih =>
    obtain ⟨hword, hrest⟩ := List.forall_mem_cons.mp h
    have hspace : NoComment ([' '] ++ spaced rest) :=
      noComment_append.mpr ⟨noComment_of_notMem (by decide), ih hrest,
        fun hmeet => absurd hmeet.1 (by decide)⟩
    exact noComment_append.mpr ⟨hword, hspace, fun hmeet => absurd hmeet.2 (by simp)⟩

end JackToolchain.Text

namespace JackToolchain.VM

open Text

/-! ### Commands -/

namespace Command

/-- The words of a command. -/
def words : Command → List String
  | push segment index => ["push", segment.name, index.decimal]
  | pop segment index => ["pop", segment.name, index.decimal]
  | arith op => [op.name]
  | label name => ["label", name]
  | goto name => ["goto", name]
  | ifGoto name => ["if-goto", name]
  | function name locals => ["function", name, locals.decimal]
  | call name args => ["call", name, args.decimal]
  | ret => ["return"]

/-- The text of a command is made of its words. -/
theorem toList_text (c : Command) : c.text.toList = spaced (c.words.map String.toList) := by
  cases c <;> simp [text, words, spaced]

theorem isWordPart_of_isDigit {c : Char} (h : c.isDigit = true) : IsWordPart c := by
  have hrange : 48 ≤ c.toNat ∧ c.toNat ≤ 57 := by
    unfold Char.isDigit at h
    simp only [Bool.and_eq_true, decide_eq_true_eq, UInt32.le_iff_toNat_le] at h
    exact h
  refine ⟨?_, ?_⟩
  · unfold isBlank
    simp only [Bool.or_eq_false_iff, Bool.and_eq_false_iff, decide_eq_false_iff_not,
      beq_eq_false_iff_ne]
    omega
  · rintro rfl
    exact absurd h (by decide)

theorem isWord_toString (n : Nat) : IsWord (toString n).toList :=
  ⟨toList_toString_ne_nil n, fun _ hc => isWordPart_of_isDigit (isDigit_of_mem_toString hc)⟩

theorem isWord_decimal (w : Word) : IsWord w.decimal.toList := isWord_toString w.toNat

theorem isWord_segment (s : Segment) : IsWord s.name.toList := by
  cases s <;> decide

theorem isWord_op (op : ArithOp) : IsWord op.name.toList := by
  cases op <;> decide

/-- What holds of all words and of the names in a command holds of the words of the command. -/
theorem forall_mem_words {P : String → Prop} {c : Command}
    (hword : ∀ word : String, IsWord word.toList → P word) (hname : ∀ name ∈ c.names, P name) :
    ∀ word ∈ c.words, P word := by
  have hkeyword : IsWord "push".toList ∧ IsWord "pop".toList ∧ IsWord "label".toList ∧
      IsWord "goto".toList ∧ IsWord "if-goto".toList ∧ IsWord "function".toList ∧
      IsWord "call".toList ∧ IsWord "return".toList := by decide
  obtain ⟨hpush, hpop, hlabel, hgoto, hifGoto, hfunction, hcall, hreturn⟩ := hkeyword
  have hdecimal (w : Word) : ∀ word ∈ [w.decimal], P word :=
    List.forall_mem_singleton.mpr (hword _ (isWord_decimal w))
  have hsegment (s : Segment) : P s.name := hword _ (isWord_segment s)
  cases c with
  | push segment index =>
    exact List.forall_mem_cons.mpr ⟨hword _ hpush,
      List.forall_mem_cons.mpr ⟨hsegment segment, hdecimal index⟩⟩
  | pop segment index =>
    exact List.forall_mem_cons.mpr ⟨hword _ hpop,
      List.forall_mem_cons.mpr ⟨hsegment segment, hdecimal index⟩⟩
  | arith op => exact List.forall_mem_singleton.mpr (hword _ (isWord_op op))
  | label name => exact List.forall_mem_cons.mpr ⟨hword _ hlabel, hname⟩
  | goto name => exact List.forall_mem_cons.mpr ⟨hword _ hgoto, hname⟩
  | ifGoto name => exact List.forall_mem_cons.mpr ⟨hword _ hifGoto, hname⟩
  | function name n =>
    exact List.forall_mem_cons.mpr ⟨hword _ hfunction, List.forall_mem_cons.mpr
      ⟨hname name (List.mem_singleton_self _), hdecimal n⟩⟩
  | call name n =>
    exact List.forall_mem_cons.mpr ⟨hword _ hcall, List.forall_mem_cons.mpr
      ⟨hname name (List.mem_singleton_self _), hdecimal n⟩⟩
  | ret => exact List.forall_mem_singleton.mpr (hword _ hreturn)

section
variable {name : String} {rest : List String}

theorem readNumber?_decimal (w : Word) : readNumber? w.decimal = some w := by
  have hempty : w.decimal.toList.isEmpty = false :=
    List.isEmpty_eq_false_iff.mpr (toList_toString_ne_nil w.toNat)
  have hdigits : ∀ c ∈ w.decimal.toList, c.isDigit = true := fun c hc => isDigit_of_mem_toString hc
  have hvalue : decimalValue w.decimal.toList = w.toNat := decimalValue_toString _
  have hword : Word.ofNat? w.toNat = some w := Word.ofNat?_eq_some_iff.mpr rfl
  unfold readNumber?
  split
  · next digits hplus =>
    rw [hplus] at hdigits
    exact absurd (hdigits '+' List.mem_cons_self) (by decide)
  · dsimp only
    rw [hempty, hvalue, hword, List.all_eq_true.mpr hdigits]
    rfl

theorem numberOperand_decimal (w : Word) :
    numberOperand name (w.decimal :: rest) = .ok (w, rest) := by
  unfold numberOperand operand
  simp only [bind, Except.bind, readNumber?_decimal]
  rfl

theorem segmentOperand_name (s : Segment) :
    segmentOperand name (s.name :: rest) = .ok (s, rest) := by
  unfold segmentOperand operand
  simp only [bind, Except.bind, Segment.ofName?_name]
  rfl

theorem ofWords_of_ofOperands {c : Command} {operands : List String}
    (h : ofOperands name operands = .ok (c, [])) : ofWords (name :: operands) = .ok c := by
  unfold ofWords
  dsimp only
  rw [h]
  rfl

end

/-- **A command is read from its words.** -/
theorem ofWords_words (c : Command) : ofWords c.words = .ok c := by
  cases c with
  | push segment index =>
    refine ofWords_of_ofOperands ?_
    show ((segmentOperand "push" [segment.name, index.decimal]).bind fun x =>
      (numberOperand "push" x.2).bind fun y => .ok (push x.1 y.1, y.2)) = _
    rw [segmentOperand_name, Except.bind, numberOperand_decimal, Except.bind]
  | pop segment index =>
    refine ofWords_of_ofOperands ?_
    show ((segmentOperand "pop" [segment.name, index.decimal]).bind fun x =>
      (numberOperand "pop" x.2).bind fun y => .ok (pop x.1 y.1, y.2)) = _
    rw [segmentOperand_name, Except.bind, numberOperand_decimal, Except.bind]
  | arith op => cases op <;> rfl
  | label name | goto name | ifGoto name => rfl
  | function name locals =>
    refine ofWords_of_ofOperands ?_
    show ((numberOperand "function" [locals.decimal]).bind fun y => .ok (function name y.1, y.2)) =
      _
    rw [numberOperand_decimal, Except.bind]
  | call name args =>
    refine ofWords_of_ofOperands ?_
    show ((numberOperand "call" [args.decimal]).bind fun y => .ok (call name y.1, y.2)) = _
    rw [numberOperand_decimal, Except.bind]
  | ret => rfl

/-! ### Names that have been read -/

section
variable {name word : String} {operands rest : List String} {c : Command}

/-- A computation behind another one succeeds only if both do. -/
theorem exists_of_bind_eq_ok {ε α β : Type} {x : Except ε α} {f : α → Except ε β} {b : β}
    (h : (x >>= f) = .ok b) : ∃ a, x = .ok a ∧ f a = .ok b := by
  cases x with
  | error e => cases h
  | ok a => exact ⟨a, rfl, h⟩

theorem operand_eq_ok (h : operand name operands = .ok (word, rest)) : operands = word :: rest := by
  cases operands with
  | nil => cases h
  | cons word' rest' =>
    cases h
    rfl

/-- The names in a command that has been read from operands are among the operands. -/
theorem mem_of_mem_names_ofOperands (h : ofOperands name operands = .ok (c, rest)) :
    ∀ n ∈ c.names, n ∈ operands := by
  have hfirst {word : String} {rest' : List String}
      (hoperand : operand name operands = .ok (word, rest')) : ∀ n ∈ [word], n ∈ operands := by
    rw [operand_eq_ok hoperand]
    exact List.forall_mem_singleton.mpr List.mem_cons_self
  unfold ofOperands at h
  split at h
  -- The commands with a segment have no names.
  case h_1 | h_2 =>
    obtain ⟨⟨segment, rest₁⟩, -, h⟩ := exists_of_bind_eq_ok h
    obtain ⟨⟨index, rest₂⟩, -, h⟩ := exists_of_bind_eq_ok h
    cases h
    exact fun n hn => absurd hn List.not_mem_nil
  case h_3 | h_4 | h_5 =>
    obtain ⟨⟨target, rest₁⟩, hoperand, h⟩ := exists_of_bind_eq_ok h
    cases h
    exact hfirst hoperand
  case h_6 | h_7 =>
    obtain ⟨⟨target, rest₁⟩, hoperand, h⟩ := exists_of_bind_eq_ok h
    obtain ⟨⟨count, rest₂⟩, -, h⟩ := exists_of_bind_eq_ok h
    cases h
    exact hfirst hoperand
  case h_8 =>
    cases h
    exact fun n hn => absurd hn List.not_mem_nil
  case h_9 =>
    split at h
    · cases h
      exact fun n hn => absurd hn List.not_mem_nil
    · cases h

/-- The names in a command that has been read from words are among the words. -/
theorem mem_of_mem_names {ws : List String} (h : ofWords ws = .ok c) : ∀ n ∈ c.names, n ∈ ws := by
  cases ws with
  | nil => cases h
  | cons name operands =>
    obtain ⟨⟨c', rest⟩, hoperands, h⟩ := exists_of_bind_eq_ok h
    cases rest with
    | cons extra rest => cases h
    | nil =>
      cases h
      exact fun n hn => List.mem_cons_of_mem _ (mem_of_mem_names_ofOperands hoperands n hn)

/-- The words of the text of a command are the words of the command. -/
theorem words_text (h : ∀ name ∈ c.names, IsRun name.toList) :
    (Text.words c.text.toList).map String.ofList = c.words := by
  have hruns : ∀ word ∈ c.words, IsRun word.toList :=
    forall_mem_words (fun _ hword => hword.isName.toIsRun) h
  have hblank : AllBlank [] := fun _ hx => absurd hx List.not_mem_nil
  have hwords := words_spaced hblank (List.forall_mem_map.mpr hruns) hblank
  rw [List.nil_append, List.append_nil] at hwords
  rw [toList_text, hwords, List.map_map]
  simp

/-- The names in a command that has been read from a text are words of the text. -/
theorem isRun_names {text : List Char} (h : ofText text = .ok c) :
    ∀ name ∈ c.names, IsRun name.toList := by
  intro name hname
  obtain ⟨word, hword, rfl⟩ := List.mem_map.mp (mem_of_mem_names h name hname)
  rw [String.toList_ofList]
  exact isRun_of_mem_words hword

/-- **What has been read is read from its own text.** -/
theorem ofText_text {text : List Char} (h : ofText text = .ok c) :
    ofText c.text.toList = .ok c := by
  unfold ofText
  rw [words_text (isRun_names h), ofWords_words]

end

end Command

end JackToolchain.VM
