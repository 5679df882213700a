import Mathlib.Computability.Language
import JackToolchain.Jack.Token

/-!
# The grammar of Jack

The grammar is data: each rule has a form, which is written with terminals, rules, sequence, choice,
repetition and option (`grammar`).  What a form derives are sequences of kinds of token (`Derives`).

A form stands for the language of what it derives, and the language is made from those of its parts
by the operations on languages (`language_append` and so on).  Beside that, the second half of the
module says with which kinds the sequences of a rule begin; that is what a reader with one token in
view can go by.
-/

namespace JackToolchain.Jack.Grammar

open Computability

/-! ### Forms -/

/-- What stands for single tokens. -/
inductive Terminal where
  | symbol (s : Symbol)
  | keyword (k : Keyword)
  | integerConstant
  | stringConstant
  | identifier

/-- Whether a token of a kind is what a terminal stands for. -/
def Terminal.Covers : Terminal → Kind → Prop
  | symbol s, k => k = .symbol s
  | keyword w, k => k = .keyword w
  | integerConstant, k => ∃ n, k = .int n
  | stringConstant, k => k = .string
  | identifier, k => k = .ident

/-- The rules of the grammar, by name. -/
inductive Rule where
  | «class» | classVarDec | type | subroutineDec | parameterList | subroutineBody | varDec
  | statements | statement | letStatement | ifStatement | whileStatement | doStatement
    | returnStatement
  | expression | term | subroutineCall | expressionList | op | unaryOp | keywordConstant

/-- The right sides of rules. -/
inductive Form where
  | terminal (t : Terminal)
  | rule (r : Rule)
  | seq (f g : Form)
  | alt (f g : Form)
  | many (f : Form)
  | option (f : Form)

namespace Form

instance : Append Form := ⟨seq⟩

instance : OrOp Form := ⟨alt⟩

/-- A symbol as a form. -/
def symbol (s : Symbol) : Form := terminal (.symbol s)

/-- A keyword as a form. -/
def keyword (k : Keyword) : Form := terminal (.keyword k)

/-- An identifier, whatever it names. -/
def name : Form := terminal .identifier

/-- `(f (',' f)*)` -/
def list (f : Form) : Form := f ++ many (symbol .comma ++ f)

end Form

open Form in
/-- **The grammar of Jack.**  The names of classes, subroutines and variables are identifiers. -/
@[simp]
def grammar : Rule → Form
  | .class => keyword .class ++ name ++ symbol .leftBrace ++ many (rule .classVarDec)
      ++ many (rule .subroutineDec) ++ symbol .rightBrace
  | .classVarDec =>
    (keyword .static ||| keyword .field) ++ rule .type ++ list name ++ symbol .semicolon
  | .type => keyword .int ||| keyword .char ||| keyword .boolean ||| name
  | .subroutineDec => (keyword .constructor ||| keyword .function ||| keyword .method)
      ++ (keyword .void ||| rule .type) ++ name ++ symbol .leftParen ++ rule .parameterList
      ++ symbol .rightParen ++ rule .subroutineBody
  | .parameterList => option (list (rule .type ++ name))
  | .subroutineBody =>
    symbol .leftBrace ++ many (rule .varDec) ++ rule .statements ++ symbol .rightBrace
  | .varDec => keyword .var ++ rule .type ++ list name ++ symbol .semicolon
  | .statements => many (rule .statement)
  | .statement =>
    rule .letStatement ||| rule .ifStatement ||| rule .whileStatement ||| rule .doStatement
      ||| rule .returnStatement
  | .letStatement => keyword .let ++ name
      ++ option (symbol .leftBracket ++ rule .expression ++ symbol .rightBracket) ++ symbol .equals
      ++ rule .expression ++ symbol .semicolon
  | .ifStatement => keyword .if ++ symbol .leftParen ++ rule .expression ++ symbol .rightParen
      ++ symbol .leftBrace ++ rule .statements ++ symbol .rightBrace
      ++ option (keyword .else ++ symbol .leftBrace ++ rule .statements ++ symbol .rightBrace)
  | .whileStatement => keyword .while ++ symbol .leftParen ++ rule .expression ++ symbol .rightParen
      ++ symbol .leftBrace ++ rule .statements ++ symbol .rightBrace
  | .doStatement => keyword .do ++ rule .subroutineCall ++ symbol .semicolon
  | .returnStatement => keyword .return ++ option (rule .expression) ++ symbol .semicolon
  | .expression => rule .term ++ many (rule .op ++ rule .term)
  | .term =>
    terminal .integerConstant ||| terminal .stringConstant ||| rule .keywordConstant ||| name
      ||| name ++ symbol .leftBracket ++ rule .expression ++ symbol .rightBracket
      ||| rule .subroutineCall ||| symbol .leftParen ++ rule .expression ++ symbol .rightParen
      ||| rule .unaryOp ++ rule .term
  | .subroutineCall => name ++ symbol .leftParen ++ rule .expressionList ++ symbol .rightParen
      ||| name ++ symbol .dot ++ name ++ symbol .leftParen ++ rule .expressionList
        ++ symbol .rightParen
  | .expressionList => option (list (rule .expression))
  | .op => symbol .plus ||| symbol .minus ||| symbol .star ||| symbol .slash ||| symbol .amp |||
    symbol .pipe
      ||| symbol .less ||| symbol .greater ||| symbol .equals
  | .unaryOp => symbol .minus ||| symbol .tilde
  | .keywordConstant => keyword .true ||| keyword .false ||| keyword .null ||| keyword .this

/-- A form derives a sequence of kinds. -/
inductive Derives : Form → List Kind → Prop where
  | terminal {t : Terminal} {k : Kind} (covers : t.Covers k) : Derives (.terminal t) [k]
  | rule {r : Rule} {w : List Kind} (body : Derives (grammar r) w) : Derives (.rule r) w
  | seq {f g : Form} {u v : List Kind} (first : Derives f u) (second : Derives g v) :
      Derives (.seq f g) (u ++ v)
  | left {f g : Form} {w : List Kind} (body : Derives f w) : Derives (.alt f g) w
  | right {f g : Form} {w : List Kind} (body : Derives g w) : Derives (.alt f g) w
  | stop {f : Form} : Derives (.many f) []
  | again {f : Form} {u v : List Kind} (first : Derives f u) (others : Derives (.many f) v) :
      Derives (.many f) (u ++ v)
  | absent {f : Form} : Derives (.option f) []
  | present {f : Form} {w : List Kind} (body : Derives f w) : Derives (.option f) w

/-! ### Languages -/

/-- What a form derives. -/
def Form.language (f : Form) : Language Kind := {w | Derives f w}

/-- What a rule derives. -/
def lang (r : Rule) : Language Kind := (Form.rule r).language

/-- The sequences of one kind that has a property. -/
def one (p : Kind → Prop) : Language Kind := {w | ∃ k, p k ∧ w = [k]}

/-- The sequence of a single kind. -/
def tok (k : Kind) : Language Kind := one (· = k)

section
variable (f g : Form) (r : Rule)

theorem language_terminal (t : Terminal) : (Form.terminal t).language = one t.Covers := by
  ext w
  constructor
  · rintro (h : Derives _ _)
    cases h with
    | terminal covers => exact ⟨_, covers, rfl⟩
  · rintro ⟨k, hk, rfl⟩
    exact Derives.terminal hk

theorem language_symbol (s : Symbol) : (Form.symbol s).language = tok (.symbol s) :=
  language_terminal _

theorem language_keyword (k : Keyword) : (Form.keyword k).language = tok (.keyword k) :=
  language_terminal _

theorem language_name : Form.name.language = tok .ident := language_terminal _

theorem language_rule : (Form.rule r).language = lang r := rfl

/-- What a rule derives is what its right side derives. -/
theorem lang_eq : lang r = (grammar r).language := by
  ext w
  constructor
  · rintro (h : Derives _ _)
    cases h with
    | rule body => exact body
  · exact Derives.rule

theorem language_append : (f ++ g).language = f.language * g.language := by
  ext w
  constructor
  · rintro (h : Derives _ _)
    cases h with
    | seq first second => exact Language.append_mem_mul first second
  · intro h
    obtain ⟨u, hu, v, hv, rfl⟩ := Language.mem_mul.mp h
    exact Derives.seq hu hv

theorem language_or : (f ||| g).language = f.language + g.language := by
  ext w
  constructor
  · rintro (h : Derives _ _)
    cases h with
    | left body => exact Or.inl body
    | right body => exact Or.inr body
  · rintro (h | h)
    · exact Derives.left h
    · exact Derives.right h

theorem language_option : f.option.language = 1 + f.language := by
  ext w
  constructor
  · rintro (h : Derives _ _)
    cases h with
    | absent => exact Or.inl rfl
    | present body => exact Or.inr body
  · rintro (rfl | h)
    · exact Derives.absent
    · exact Derives.present h

theorem language_many : f.many.language = f.language∗ := by
  ext w
  constructor
  · rintro (h : Derives _ _)
    generalize hf : Form.many f = g at h
    induction h with
    | stop => exact Language.nil_mem_kstar _
    | again first others _ ih =>
      cases hf
      rw [← Language.one_add_self_mul_kstar_eq_kstar]
      exact Or.inr (Language.append_mem_mul first (ih rfl))
    | terminal | rule | seq | left | right | absent | present => cases hf
  · intro h
    obtain ⟨parts, rfl, hparts⟩ := Language.mem_kstar.mp h
    induction parts with
    | nil => exact Derives.stop
    | cons u parts ih =>
      obtain ⟨hu, hrest⟩ := List.forall_mem_cons.mp hparts
      exact Derives.again hu (ih hrest (Language.join_mem_kstar hrest))

end

/-! ### Beginnings -/

/-- There is a sequence in a language. -/
class Productive (L : Language Kind) : Prop where
  exists_mem : ∃ w, w ∈ L

instance : Productive 1 := ⟨[], rfl⟩

instance (k : Kind) : Productive (tok k) := ⟨[k], k, rfl, rfl⟩

instance (L : Language Kind) : Productive (L∗) := ⟨[], Language.nil_mem_kstar L⟩

instance (L K : Language Kind) [Productive L] [Productive K] : Productive (L * K) := by
  obtain ⟨u, hu⟩ := Productive.exists_mem (L := L)
  obtain ⟨v, hv⟩ := Productive.exists_mem (L := K)
  exact ⟨u ++ v, Language.append_mem_mul hu hv⟩

instance (L K : Language Kind) [Productive L] : Productive (L + K) := by
  obtain ⟨u, hu⟩ := Productive.exists_mem (L := L)
  exact ⟨u, Or.inl hu⟩

/-- The sequences of a language begin with none of the kinds. -/
def Avoids (K : Language Kind) (A : Set Kind) : Prop := ∀ k z, k :: z ∈ K → k ∉ A

section
variable {L K : Language Kind} {A B : Set Kind} {k : Kind} {z : List Kind}

theorem mem_tok_mul : z ∈ tok k * L ↔ ∃ rest, z = k :: rest ∧ rest ∈ L := by
  constructor
  · intro h
    obtain ⟨u, ⟨k', rfl, rfl⟩, v, hv, rfl⟩ := Language.mem_mul.mp h
    exact ⟨v, rfl, hv⟩
  · rintro ⟨rest, rfl, hrest⟩
    have hk : [k] ∈ tok k := ⟨k, rfl, rfl⟩
    exact Language.append_mem_mul hk hrest

theorem cons_mem_tok_mul {k' : Kind} : k' :: z ∈ tok k * L ↔ k' = k ∧ z ∈ L := by
  rw [mem_tok_mul]
  constructor
  · rintro ⟨rest, h, hrest⟩
    cases h
    exact ⟨rfl, hrest⟩
  · rintro ⟨rfl, hz⟩
    exact ⟨z, rfl, hz⟩

theorem cons_mem_tok {k' : Kind} : k' :: z ∈ tok k ↔ k' = k ∧ z = [] := by
  constructor
  · rintro ⟨k'', rfl, h⟩
    cases h
    exact ⟨rfl, rfl⟩
  · rintro ⟨rfl, rfl⟩
    exact ⟨k', rfl, rfl⟩

theorem cons_mem_one {p : Kind → Prop} : k :: z ∈ one p ↔ p k ∧ z = [] := by
  constructor
  · rintro ⟨k', hk', h⟩
    cases h
    exact ⟨hk', rfl⟩
  · rintro ⟨hk, rfl⟩
    exact ⟨k, hk, rfl⟩

theorem nil_notMem_mul (h : [] ∉ L) : [] ∉ L * K := by
  intro hmem
  obtain ⟨u, hu, v, -, heq⟩ := Language.mem_mul.mp hmem
  obtain ⟨rfl, -⟩ := List.append_eq_nil_iff.mp heq
  exact h hu

theorem nil_notMem_tok_mul : [] ∉ tok k * L := by
  intro h
  obtain ⟨rest, heq, -⟩ := mem_tok_mul.mp h
  cases heq

theorem nil_notMem_tok : [] ∉ tok k := by
  rintro ⟨k', -, h⟩
  cases h

/-- A sequence of a product begins as one of the first language, unless the first part is empty. -/
theorem cons_mem_mul (h : k :: z ∈ L * K) :
    (∃ u v, z = u ++ v ∧ k :: u ∈ L ∧ v ∈ K) ∨ [] ∈ L ∧ k :: z ∈ K := by
  obtain ⟨u, hu, v, hv, heq⟩ := Language.mem_mul.mp h
  cases u with
  | nil => exact Or.inr ⟨hu, heq ▸ hv⟩
  | cons k' u =>
    obtain ⟨rfl, rfl⟩ := List.cons.inj heq
    exact Or.inl ⟨u, v, rfl, hu, hv⟩

theorem Avoids.mono (h : Avoids K B) (hAB : A ⊆ B) : Avoids K A :=
  fun k z hz hk => h k z hz (hAB hk)

theorem avoids_empty : Avoids K ∅ := fun _ _ _ h => h

theorem avoids_tok_mul (h : k ∉ A) : Avoids (tok k * L) A := by
  intro k' z hz hk'
  obtain ⟨rfl, -⟩ := cons_mem_tok_mul.mp hz
  exact h hk'

theorem avoids_mul (hL : Avoids L A) (hK : [] ∈ L → Avoids K A) : Avoids (L * K) A := by
  intro k z hz
  rcases cons_mem_mul hz with ⟨u, -, -, hu, -⟩ | ⟨hnil, hz⟩
  · exact hL k u hu
  · exact hK hnil k z hz

theorem avoids_kstar_mul (hL : Avoids L A) (hK : Avoids K A) : Avoids (L∗ * K) A := by
  refine avoids_mul ?_ fun _ => hK
  intro k z hz
  obtain ⟨parts, hparts, hne⟩ := Language.mem_kstar_iff_exists_nonempty.mp hz
  cases parts with
  | nil => cases hparts
  | cons u parts =>
    obtain ⟨hu, hu'⟩ := hne u (List.mem_cons_self ..)
    cases u with
    | nil => exact absurd rfl hu'
    | cons k' u =>
      obtain ⟨rfl, -⟩ := List.cons.inj hparts
      exact hL k u hu

end

/-! ### Rules -/

/-- The sequence of a symbol. -/
abbrev sym (s : Symbol) : Language Kind := tok (.symbol s)

/-- The sequence of a keyword. -/
abbrev kw (k : Keyword) : Language Kind := tok (.keyword k)

theorem language_list (f : Form) : f.list.language = f.language * (sym .comma * f.language)∗ := by
  simp only [Form.list, language_append, language_many, language_symbol]

theorem lang_class :
    lang .class = kw .class * (tok .ident * (sym .leftBrace * ((lang .classVarDec)∗
      * ((lang .subroutineDec)∗ * sym .rightBrace)))) := by
  refine (lang_eq _).trans ?_
  simp only [grammar, language_append, language_many, language_keyword, language_symbol,
    language_name, language_rule, mul_assoc]

theorem lang_classVarDec :
    lang .classVarDec = (kw .static + kw .field) *
      (lang .type * (tok .ident * (sym .comma * tok .ident)∗ * sym .semicolon)) := by
  refine (lang_eq _).trans ?_
  simp only [grammar, language_append, language_or, language_list, language_keyword,
    language_symbol, language_name, language_rule, mul_assoc]

theorem lang_type :
    lang .type = kw .int + kw .char + kw .boolean + tok .ident := by
  refine (lang_eq _).trans ?_
  simp only [grammar, language_or, language_keyword, language_name]

theorem lang_subroutineDec :
    lang .subroutineDec = (kw .constructor + kw .function + kw .method) *
      ((kw .void + lang .type) *
        (tok .ident *
          (sym .leftParen * (lang .parameterList * (sym .rightParen * lang .subroutineBody))))) := by
  refine (lang_eq _).trans ?_
  simp only [grammar, language_append, language_or, language_keyword, language_symbol,
    language_name, language_rule, mul_assoc]

theorem lang_parameterList :
    lang .parameterList = 1 + lang .type * tok .ident *
      (sym .comma * (lang .type * tok .ident))∗ := by
  refine (lang_eq _).trans ?_
  simp only [grammar, language_append, language_option, language_list, language_name, language_rule]

theorem lang_subroutineBody :
    lang .subroutineBody =
      sym .leftBrace * ((lang .varDec)∗ * (lang .statements * sym .rightBrace)) := by
  refine (lang_eq _).trans ?_
  simp only [grammar, language_append, language_many, language_symbol, language_rule, mul_assoc]

theorem lang_varDec :
    lang .varDec =
      kw .var * (lang .type * (tok .ident * (sym .comma * tok .ident)∗ * sym .semicolon)) := by
  refine (lang_eq _).trans ?_
  simp only [grammar, language_append, language_list, language_keyword, language_symbol,
    language_name, language_rule, mul_assoc]

theorem lang_statements :
    lang .statements = (lang .statement)∗ := by
  refine (lang_eq _).trans ?_
  simp only [grammar, language_many, language_rule]

theorem lang_statement :
    lang .statement = lang .letStatement + lang .ifStatement + lang .whileStatement +
      lang .doStatement + lang .returnStatement := by
  refine (lang_eq _).trans ?_
  simp only [grammar, language_or, language_rule]

theorem lang_letStatement :
    lang .letStatement = kw .let * (tok .ident * ((1 + sym .leftBracket * (lang .expression
      * sym .rightBracket)) * (sym .equals * (lang .expression * sym .semicolon)))) := by
  refine (lang_eq _).trans ?_
  simp only [grammar, language_append, language_option, language_keyword, language_symbol,
    language_name, language_rule, mul_assoc]

theorem lang_ifStatement :
    lang .ifStatement =
      kw .if * (sym .leftParen * (lang .expression * (sym .rightParen * (sym .leftBrace *
        (lang .statements * (sym .rightBrace *
          (1 + kw .else * (sym .leftBrace * (lang .statements * sym .rightBrace))))))))) := by
  refine (lang_eq _).trans ?_
  simp only [grammar, language_append, language_option, language_keyword, language_symbol,
    language_rule, mul_assoc]

theorem lang_whileStatement :
    lang .whileStatement =
      kw .while * (sym .leftParen * (lang .expression * (sym .rightParen *
        (sym .leftBrace * (lang .statements * sym .rightBrace))))) := by
  refine (lang_eq _).trans ?_
  simp only [grammar, language_append, language_keyword, language_symbol, language_rule, mul_assoc]

theorem lang_doStatement :
    lang .doStatement = kw .do * (lang .subroutineCall * sym .semicolon) := by
  refine (lang_eq _).trans ?_
  simp only [grammar, language_append, language_keyword, language_symbol, language_rule, mul_assoc]

theorem lang_returnStatement :
    lang .returnStatement = kw .return * ((1 + lang .expression) * sym .semicolon) := by
  refine (lang_eq _).trans ?_
  simp only [grammar, language_append, language_option, language_keyword, language_symbol,
    language_rule, mul_assoc]

theorem lang_expression :
    lang .expression = lang .term * (lang .op * lang .term)∗ := by
  refine (lang_eq _).trans ?_
  simp only [grammar, language_append, language_many, language_rule]

theorem lang_term :
    lang .term = one (fun k => ∃ n, k = .int n) + tok .string + lang .keywordConstant + tok .ident
      + tok .ident * (sym .leftBracket * (lang .expression * sym .rightBracket))
      + lang .subroutineCall
      + sym .leftParen * (lang .expression * sym .rightParen) + lang .unaryOp * lang .term := by
  refine (lang_eq _).trans ?_
  simp only [grammar, language_append, language_or, language_symbol, language_name,
    language_terminal, language_rule, mul_assoc]
  rfl

theorem lang_subroutineCall :
    lang .subroutineCall = tok .ident * (sym .leftParen * (lang .expressionList * sym .rightParen))
      + tok .ident * (sym .dot * (tok .ident * (sym .leftParen * (lang .expressionList
      * sym .rightParen)))) := by
  refine (lang_eq _).trans ?_
  simp only [grammar, language_append, language_or, language_symbol, language_name,
    language_rule, mul_assoc]

theorem lang_expressionList :
    lang .expressionList = 1 + lang .expression * (sym .comma * lang .expression)∗ := by
  refine (lang_eq _).trans ?_
  simp only [grammar, language_option, language_list, language_rule]

theorem lang_op :
    lang .op = sym .plus + sym .minus + sym .star + sym .slash + sym .amp + sym .pipe + sym .less
      + sym .greater + sym .equals := by
  refine (lang_eq _).trans ?_
  simp only [grammar, language_or, language_symbol]

theorem lang_unaryOp :
    lang .unaryOp = sym .minus + sym .tilde := by
  refine (lang_eq _).trans ?_
  simp only [grammar, language_or, language_symbol]

theorem lang_keywordConstant :
    lang .keywordConstant = kw .true + kw .false + kw .null + kw .this := by
  refine (lang_eq _).trans ?_
  simp only [grammar, language_or, language_keyword]

/-! ### What rules begin with -/

instance : Productive (lang .type) := ⟨[.keyword .int], by
  rw [lang_type]
  exact Or.inl (Or.inl (Or.inl ⟨_, rfl, rfl⟩))⟩

instance : Productive (lang .term) := ⟨[.string], by
  rw [lang_term]
  exact Or.inl (Or.inl (Or.inl (Or.inl (Or.inl (Or.inl (Or.inr ⟨_, rfl, rfl⟩))))))⟩

instance : Productive (lang .expression) := by
  rw [lang_expression]
  infer_instance

instance : Productive (lang .expressionList) := by
  rw [lang_expressionList]
  infer_instance

instance : Productive (lang .statements) := by
  rw [lang_statements]
  infer_instance

instance : Productive (lang .parameterList) := by
  rw [lang_parameterList]
  infer_instance

instance : Productive (lang .varDec) := by
  rw [lang_varDec]
  infer_instance

instance : Productive (lang .subroutineBody) := by
  rw [lang_subroutineBody]
  infer_instance

instance : Productive (lang .classVarDec) := by
  rw [lang_classVarDec]
  infer_instance

instance : Productive (lang .subroutineDec) := by
  rw [lang_subroutineDec]
  infer_instance

instance : Productive (lang .subroutineCall) := by
  rw [lang_subroutineCall]
  infer_instance

section
variable {k : Kind} {z : List Kind}

theorem cons_mem_type :
    k :: z ∈ lang .type ↔
      (k = .keyword .int ∨ k = .keyword .char ∨ k = .keyword .boolean ∨ k = .ident) ∧ z = [] := by
  rw [lang_type]
  simp only [Language.mem_add, cons_mem_tok, or_and_right, or_assoc]

theorem nil_notMem_type : [] ∉ lang .type := by
  rw [lang_type]
  simp only [Language.mem_add, nil_notMem_tok, or_self, not_false_iff]

theorem cons_mem_keywordConstant :
    k :: z ∈ lang .keywordConstant ↔
      (k = .keyword .true ∨ k = .keyword .false ∨ k = .keyword .null ∨ k = .keyword .this) ∧
      z = [] := by
  rw [lang_keywordConstant]
  simp only [Language.mem_add, cons_mem_tok, or_and_right, or_assoc]

/-- What may follow the first name of a call. -/
theorem lang_call_eq :
    lang .subroutineCall =
      tok .ident * ((sym .dot * tok .ident + 1) *
        (sym .leftParen * (lang .expressionList * sym .rightParen))) := by
  rw [lang_subroutineCall, add_mul, one_mul, mul_add, mul_assoc, add_comm]

/-- The terms by the token that they begin with. -/
theorem cons_mem_term :
    k :: z ∈ lang .term ↔
      (z = [] ∧ ((∃ n, k = .int n) ∨ k = .string ∨ k = .keyword .true ∨ k = .keyword .false
        ∨ k = .keyword .null ∨ k = .keyword .this ∨ k = .ident)) ∨
      (k = .ident ∧ (z ∈ sym .leftBracket * (lang .expression * sym .rightBracket)
        ∨ z ∈ (sym .dot * tok .ident + 1) *
          (sym .leftParen * (lang .expressionList * sym .rightParen)))) ∨
      (k = .symbol .leftParen ∧ z ∈ lang .expression * sym .rightParen) ∨
      ((k = .symbol .minus ∨ k = .symbol .tilde) ∧ z ∈ lang .term) := by
  have hunary : k :: z ∈ lang .unaryOp * lang .term ↔
      (k = .symbol .minus ∨ k = .symbol .tilde) ∧ z ∈ lang .term := by
    rw [lang_unaryOp, add_mul, Language.mem_add, cons_mem_tok_mul, cons_mem_tok_mul, or_and_right]
  conv_lhs => rw [lang_term]
  simp only [Language.mem_add, cons_mem_one, cons_mem_tok, cons_mem_keywordConstant, lang_call_eq,
    cons_mem_tok_mul, hunary]
  grind

theorem nil_notMem_term : [] ∉ lang .term := by
  have hunary : [] ∉ lang .unaryOp * lang .term := by
    rw [lang_unaryOp, add_mul]
    rintro (h | h) <;> exact nil_notMem_tok_mul h
  have hinteger : [] ∉ one fun k => ∃ n, k = .int n := by
    rintro ⟨k, -, h⟩
    cases h
  have hkeyword : [] ∉ lang .keywordConstant := by
    rw [lang_keywordConstant]
    rintro (((h | h) | h) | h) <;> exact nil_notMem_tok h
  rw [lang_term, lang_call_eq]
  rintro (((((((h | h) | h) | h) | h) | h) | h) | h)
  · exact hinteger h
  · exact nil_notMem_tok h
  · exact hkeyword h
  · exact nil_notMem_tok h
  · exact nil_notMem_tok_mul h
  · exact nil_notMem_tok_mul h
  · exact nil_notMem_tok_mul h
  · exact hunary h

/-- The rule of the statements that begin with a kind. -/
def statementRule? : Kind → Option Rule
  | .keyword .let => some .letStatement
  | .keyword .if => some .ifStatement
  | .keyword .while => some .whileStatement
  | .keyword .do => some .doStatement
  | .keyword .return => some .returnStatement
  | _ => none

theorem mem_statement {r : Rule} {w : List Kind} (hr : statementRule? k = some r)
    (hw : w ∈ lang r) : w ∈ lang .statement := by
  rw [lang_statement]
  unfold statementRule? at hr
  split at hr
  · cases hr
    exact Or.inl (Or.inl (Or.inl (Or.inl hw)))
  · cases hr
    exact Or.inl (Or.inl (Or.inl (Or.inr hw)))
  · cases hr
    exact Or.inl (Or.inl (Or.inr hw))
  · cases hr
    exact Or.inl (Or.inr hw)
  · cases hr
    exact Or.inr hw
  · cases hr

/-- Statements begin with the keyword that names them. -/
theorem cons_mem_statement (h : k :: z ∈ lang .statement) :
    ∃ r, statementRule? k = some r ∧ k :: z ∈ lang r := by
  rw [lang_statement] at h
  rcases h with (((h | h) | h) | h) | h
  · have hk := h
    rw [lang_letStatement] at hk
    obtain ⟨rfl, -⟩ := cons_mem_tok_mul.mp hk
    exact ⟨_, rfl, h⟩
  · have hk := h
    rw [lang_ifStatement] at hk
    obtain ⟨rfl, -⟩ := cons_mem_tok_mul.mp hk
    exact ⟨_, rfl, h⟩
  · have hk := h
    rw [lang_whileStatement] at hk
    obtain ⟨rfl, -⟩ := cons_mem_tok_mul.mp hk
    exact ⟨_, rfl, h⟩
  · have hk := h
    rw [lang_doStatement] at hk
    obtain ⟨rfl, -⟩ := cons_mem_tok_mul.mp hk
    exact ⟨_, rfl, h⟩
  · have hk := h
    rw [lang_returnStatement] at hk
    obtain ⟨rfl, -⟩ := cons_mem_tok_mul.mp hk
    exact ⟨_, rfl, h⟩

theorem nil_notMem_statement : [] ∉ lang .statement := by
  rw [lang_statement, lang_letStatement, lang_ifStatement, lang_whileStatement, lang_doStatement,
    lang_returnStatement]
  rintro ((((h | h) | h) | h) | h) <;> exact nil_notMem_tok_mul h

instance : Productive (lang .statement) := by
  obtain ⟨w, hw⟩ :=
    Productive.exists_mem (L := kw .return * ((1 + lang .expression) * sym .semicolon))
  rw [← lang_returnStatement] at hw
  exact ⟨w, mem_statement (k := .keyword .return) rfl hw⟩

end

end JackToolchain.Jack.Grammar
