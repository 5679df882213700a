import JackToolchain.Proofs.Jack.Labels
import JackToolchain.Proofs.Jack.Spelling
import JackToolchain.Proofs.VM.TranslatedProgram

/-!
# The commands of a class can be translated

The names in a well-spelled class are identifiers, so the names that generation makes of them, with
a dot or a number, are names that a translator reads and an assembler takes for symbols.  Besides,
every command that is generated has a block (`sound_subroutineCodes`).
-/

namespace JackToolchain.Jack

open Hack (IsSymbol)
open Text (IsWord IsWordPart)
open VM (Command Context Label declaredLabels declaredLabels_append)

/-! ### Names -/

/-- The name of a subroutine with that of its class. -/
def IsQualified (name : String) : Prop :=
  ∃ c s : String, IsIdentifier c.toList ∧ IsIdentifier s.toList ∧ name = c ++ "." ++ s

/-- A character of an identifier. -/
def IsNamePart (c : Char) : Prop := c.isAlphanum = true ∨ c = '_'

theorem isNamePart_of_isIdentifier {name : List Char} (h : IsIdentifier name) :
    ∀ c ∈ name, IsNamePart c := by
  cases name with
  | nil => exact absurd h id
  | cons c cs =>
    refine List.forall_mem_cons.mpr ⟨h.1.imp_left fun halpha => ?_, h.2⟩
    rw [Char.isAlphanum, halpha]
    rfl

theorem isWordPart_of_isNamePart {c : Char} (h : IsNamePart c) : IsWordPart c := by
  have hwordlike : IsWordlike c :=
    h.elim isWordlike_of_isAlphanum fun heq => heq ▸ isWordlike_underscore
  exact ⟨hwordlike.not_blank, hwordlike.not_symbol .slash⟩

theorem ne_of_isNamePart {c : Char} (h : IsNamePart c) : c ≠ '.' ∧ c ≠ '$' := by
  constructor <;> rintro rfl <;> exact absurd h (by unfold IsNamePart; decide)

theorem isSymbol_of_isIdentifier {name : String} (h : IsIdentifier name.toList) :
    IsSymbol name := by
  have hparts := isNamePart_of_isIdentifier h
  cases hlist : name.toList with
  | nil =>
    rw [hlist] at h
    exact absurd h id
  | cons c cs =>
    rw [hlist] at h hparts
    refine ⟨c, cs, hlist, ?_, fun d hd => ?_⟩
    · rcases h.1 with halpha | rfl
      · unfold Hack.isSymbolStart
        rw [halpha]
        rfl
      · decide
    · rcases hparts d (List.mem_cons_of_mem c hd) with halphanum | rfl
      · rw [Char.isAlphanum, Bool.or_eq_true] at halphanum
        unfold Hack.isSymbolPart Hack.isSymbolStart
        rcases halphanum with h | h <;> simp [h]
      · decide

theorem isWord_of_isIdentifier {name : List Char} (h : IsIdentifier name) : IsWord name := by
  refine ⟨?_, fun c hc => isWordPart_of_isNamePart (isNamePart_of_isIdentifier h c hc)⟩
  rintro rfl
  exact h

theorem dot_notMem_of_isIdentifier {name : List Char} (h : IsIdentifier name) :
    '.' ∉ name := fun hmem =>
  (ne_of_isNamePart (isNamePart_of_isIdentifier h _ hmem)).1 rfl

theorem dollar_notMem_of_isIdentifier {name : List Char} (h : IsIdentifier name) :
    '$' ∉ name := fun hmem =>
  (ne_of_isNamePart (isNamePart_of_isIdentifier h _ hmem)).2 rfl

namespace IsQualified

variable {name : String}

theorem isWord (h : IsQualified name) : IsWord name.toList := by
  obtain ⟨c, s, hc, hs, rfl⟩ := h
  obtain ⟨hne, hparts⟩ := isWord_of_isIdentifier hc
  rw [String.toList_append, String.toList_append]
  refine ⟨fun hnil => hne (List.append_eq_nil_iff.mp (List.append_eq_nil_iff.mp hnil).1).1, ?_⟩
  exact List.forall_mem_append.mpr ⟨List.forall_mem_append.mpr ⟨hparts, by decide⟩,
    (isWord_of_isIdentifier hs).2⟩

theorem isSymbol (h : IsQualified name) : IsSymbol name := by
  obtain ⟨c, s, hc, hs, rfl⟩ := h
  have hdot : IsSymbol "." := by decide
  exact (isSymbol_of_isIdentifier hs).behind
    (.inr (hdot.behind (.inr (isSymbol_of_isIdentifier hc))))

theorem isFunctionName (h : IsQualified name) : VM.IsFunctionName name := by
  obtain ⟨c, s, hc, hs, rfl⟩ := h
  constructor
  · simp
  · simp [dollar_notMem_of_isIdentifier hc, dollar_notMem_of_isIdentifier hs]

end IsQualified

/-- A label with a number is read as it is written, and it does not begin like a label of a
translator. -/
theorem wellNamed_of_mem_numberedLabels {name : String} {n : Nat} (h : name ∈ numberedLabels n) :
    IsWord name.toList ∧ IsSymbol name ∧ ∀ x ∈ name.toList.head?, x ≠ 'C' ∧ x ≠ 'r' := by
  have hnumbered {front : String} (hword : IsWord front.toList) (hsymbol : IsSymbol front)
      (hhead : ∀ x ∈ front.toList.head?, x ≠ 'C' ∧ x ≠ 'r') :
      IsWord (front ++ toString n).toList ∧ IsSymbol (front ++ toString n) ∧
        ∀ x ∈ (front ++ toString n).toList.head?, x ≠ 'C' ∧ x ≠ 'r' := by
    rw [String.toList_append, List.head?_append_of_ne_nil _ hword.1]
    refine ⟨⟨List.append_ne_nil_of_left_ne_nil hword.1 _, ?_⟩, hsymbol.numbered n, hhead⟩
    exact List.forall_mem_append.mpr ⟨hword.2, (Command.isWord_toString n).2⟩
  -- What is in front of the number decides about the head, and a number goes on with a word.
  simp only [numberedLabels, List.mem_cons, List.not_mem_nil, or_false] at h
  rcases h with rfl | rfl | rfl | rfl <;> exact hnumbered (by decide) (by decide) (by decide)

/-! ### Commands -/

/-- A command that can be translated, with names as they should be. -/
structure Sound (c : Command) : Prop where
  wellNamed : c.WellNamed
  translatable : c.Translatable

theorem sound_of_names_eq_nil {c : Command} (hnames : c.names = []) (h : c.Translatable) :
    Sound c where
  wellNamed :=
    { isWord := fun name hname => absurd (hnames ▸ hname) List.not_mem_nil
      isSymbol := fun name hname => absurd (hnames ▸ hname) List.not_mem_nil
      function := by
        rintro name locals rfl
        cases hnames
      label := by
        rintro name rfl
        cases hnames }
  translatable := h

theorem sound_call {name : String} (args : Word) (h : IsQualified name) : Sound (.call name args) :=
  ⟨⟨List.forall_mem_singleton.mpr h.isWord, List.forall_mem_singleton.mpr h.isSymbol, nofun, nofun⟩,
    trivial⟩

theorem sound_function {name : String} (locals : Word) (h : IsQualified name) :
    Sound (.function name locals) := by
  refine ⟨⟨List.forall_mem_singleton.mpr h.isWord, List.forall_mem_singleton.mpr h.isSymbol, ?_,
    nofun⟩, trivial⟩
  rintro name' locals' ⟨⟩
  exact h.isFunctionName

theorem sound_of_mem_numberedLabels {name : String} {n : Nat} (h : name ∈ numberedLabels n) :
    Sound (.label name) ∧ Sound (.goto name) ∧ Sound (.ifGoto name) := by
  obtain ⟨hword, hsymbol, hhead⟩ := wellNamed_of_mem_numberedLabels h
  have hword' : ∀ x ∈ [name], IsWord x.toList := List.forall_mem_singleton.mpr hword
  have hsymbol' : ∀ x ∈ [name], IsSymbol x := List.forall_mem_singleton.mpr hsymbol
  refine ⟨⟨⟨hword', hsymbol', nofun, ?_⟩, trivial⟩, ⟨⟨hword', hsymbol', nofun, nofun⟩, trivial⟩,
    ⟨⟨hword', hsymbol', nofun, nofun⟩, trivial⟩⟩
  rintro name' ⟨⟩
  exact hhead

/-! ### Expressions -/

/-- The class of a subroutine and the classes of its variables have identifiers for names. -/
structure Naming.Spelled (names : Naming) : Prop where
  className : IsIdentifier names.className.toList
  type : ∀ x v, names.lookup x = some v → IsIdentifier v.type.toList

section
variable {names : Naming}

theorem VarKind.translatable (kind : VarKind) (index : Word) :
    (Command.push kind.segment index).Translatable ∧
      (Command.pop kind.segment index).Translatable := by
  cases kind <;> exact ⟨trivial, nofun, trivial⟩

theorem Naming.sound_pushCode (x : Ident) : ∀ c ∈ names.pushCode x, Sound c := by
  unfold Naming.pushCode
  split
  · exact List.forall_mem_singleton.mpr (sound_of_names_eq_nil rfl (VarKind.translatable _ _).1)
  · exact fun c hc => absurd hc List.not_mem_nil

theorem Naming.sound_popCode (x : Ident) : ∀ c ∈ names.popCode x, Sound c := by
  unfold Naming.popCode
  split
  · exact List.forall_mem_singleton.mpr (sound_of_names_eq_nil rfl (VarKind.translatable _ _).2)
  · exact fun c hc => absurd hc List.not_mem_nil

theorem Naming.sound_receiverCode (receiver : Option Ident) :
    ∀ c ∈ names.receiverCode receiver, Sound c := by
  cases receiver with
  | none => exact List.forall_mem_singleton.mpr (sound_of_names_eq_nil rfl (by decide))
  | some x => exact names.sound_pushCode x

/-- The full name of a subroutine is qualified. -/
theorem Naming.isQualified_target (hnames : names.Spelled) {receiver : Option Ident} {name : Ident}
    (hreceiver : ∀ x ∈ receiver, x.Spelled) (hname : name.Spelled) :
    IsQualified (names.target receiver name) := by
  cases receiver with
  | none => exact ⟨_, _, hnames.className, hname.isIdentifier, rfl⟩
  | some x =>
    unfold Naming.target
    dsimp only
    split
    · next v hv => exact ⟨_, _, hnames.type _ v hv, hname.isIdentifier, rfl⟩
    · exact ⟨_, _, (hreceiver x rfl).isIdentifier, hname.isIdentifier, rfl⟩

theorem sound_push (w : Word) : Sound (.push .constant w) := sound_of_names_eq_nil rfl trivial

theorem isQualified_library : IsQualified "String.new" ∧ IsQualified "String.appendChar" ∧
    IsQualified "Math.multiply" ∧ IsQualified "Math.divide" ∧ IsQualified "Memory.alloc" :=
  ⟨⟨"String", "new", by decide, by decide, rfl⟩,
    ⟨"String", "appendChar", by decide, by decide, rfl⟩,
    ⟨"Math", "multiply", by decide, by decide, rfl⟩, ⟨"Math", "divide", by decide, by decide, rfl⟩,
    ⟨"Memory", "alloc", by decide, by decide, rfl⟩⟩

theorem Literal.sound_code (value : Literal) : ∀ c ∈ value.code, Sound c := by
  obtain ⟨hnew, happend, -⟩ := isQualified_library
  cases value with
  | int value digits => exact List.forall_mem_singleton.mpr (sound_push _)
  | string contents span =>
    refine List.forall_mem_append.mpr ⟨?_, fun c hc => ?_⟩
    · exact List.forall_mem_cons.mpr ⟨sound_push _,
        List.forall_mem_singleton.mpr (sound_call _ hnew)⟩
    · obtain ⟨unit, -, hc⟩ := List.mem_flatMap.mp hc
      have hpair : ∀ c ∈ [Command.push .constant unit, .call "String.appendChar" 2], Sound c :=
        List.forall_mem_cons.mpr ⟨sound_push _,
          List.forall_mem_singleton.mpr (sound_call _ happend)⟩
      exact hpair c hc
  | true =>
    exact List.forall_mem_cons.mpr ⟨sound_push _,
      List.forall_mem_singleton.mpr (sound_of_names_eq_nil rfl trivial)⟩
  | false | null => exact List.forall_mem_singleton.mpr (sound_push _)
  | this => exact List.forall_mem_singleton.mpr (sound_of_names_eq_nil rfl (by decide))

theorem sound_unaryCommand (op : UnaryOp) : Sound (Generation.unaryCommand op) := by
  cases op <;> exact sound_of_names_eq_nil rfl trivial

theorem sound_binaryCommand (op : BinaryOp) : Sound (Generation.binaryCommand op) := by
  obtain ⟨-, -, hmultiply, hdivide, -⟩ := isQualified_library
  cases op with
  | mul => exact sound_call _ hmultiply
  | div => exact sound_call _ hdivide
  | add | sub | and | or | lt | gt | eq => exact sound_of_names_eq_nil rfl trivial

end

mutual

theorem Term.sound_code {names : Naming} (hnames : names.Spelled) :
    ∀ t : Term, t.Spelled → ∀ c ∈ t.code names, Sound c
  | .literal value, h => by
    rw [Term.code]
    exact value.sound_code
  | .var x, h => by
    rw [Term.code]
    exact names.sound_pushCode x
  | .element array subscript, h => by
    rw [Term.Spelled] at h
    rw [Term.code]
    have hlast : ∀ c ∈ [Command.arith .add, .pop .pointer 1, .push .that 0], Sound c := by
      simp only [List.forall_mem_cons]
      exact ⟨sound_of_names_eq_nil rfl trivial, sound_of_names_eq_nil rfl (by decide),
        sound_of_names_eq_nil rfl trivial, List.forall_mem_nil _⟩
    exact List.forall_mem_append.mpr ⟨List.forall_mem_append.mpr ⟨names.sound_pushCode array,
      subscript.sound_code hnames h.2⟩, hlast⟩
  | .call call, h => by
    rw [Term.Spelled] at h
    rw [Term.code]
    exact call.sound_code hnames h
  | .paren inner, h => by
    rw [Term.Spelled] at h
    rw [Term.code]
    exact inner.sound_code hnames h
  | .unary op operand, h => by
    rw [Term.Spelled] at h
    rw [Term.code]
    exact List.forall_mem_append.mpr ⟨operand.sound_code hnames h,
      List.forall_mem_singleton.mpr (sound_unaryCommand op)⟩

theorem Expr.sound_code {names : Naming} (hnames : names.Spelled) :
    ∀ e : Expr, e.Spelled → ∀ c ∈ e.code names, Sound c
  | .mk head tail, h => by
    rw [Expr.Spelled] at h
    rw [Expr.code]
    exact List.forall_mem_append.mpr ⟨head.sound_code hnames h.1,
      sound_operandsCode hnames tail h.2⟩

theorem sound_operandsCode {names : Naming} (hnames : names.Spelled) :
    ∀ operands : List Operand, OperandsSpelled operands → ∀ c ∈ operandsCode names operands, Sound c
  | [], _ => by
    rw [operandsCode]
    exact List.forall_mem_nil _
  | .mk op term :: rest, h => by
    rw [OperandsSpelled] at h
    rw [operandsCode]
    exact List.forall_mem_append.mpr ⟨term.sound_code hnames h.1,
      List.forall_mem_cons.mpr ⟨sound_binaryCommand op, sound_operandsCode hnames rest h.2⟩⟩

theorem Call.sound_code {names : Naming} (hnames : names.Spelled) :
    ∀ call : Call, call.Spelled → ∀ c ∈ call.code names, Sound c
  | .mk receiver name paren args, h => by
    rw [Call.Spelled] at h
    rw [Call.code]
    obtain ⟨hreceiver, hname, hargs⟩ := h
    have htarget := Naming.isQualified_target hnames hreceiver hname
    exact List.forall_mem_append.mpr ⟨List.forall_mem_append.mpr
      ⟨names.sound_receiverCode receiver, sound_argsCode hnames args hargs⟩,
      List.forall_mem_singleton.mpr (sound_call _ htarget)⟩

theorem sound_argsCode {names : Naming} (hnames : names.Spelled) :
    ∀ args : List Expr, ArgsSpelled args → ∀ c ∈ argsCode names args, Sound c
  | [], _ => by
    rw [argsCode]
    exact List.forall_mem_nil _
  | arg :: rest, h => by
    rw [ArgsSpelled] at h
    rw [argsCode]
    exact List.forall_mem_append.mpr ⟨arg.sound_code hnames h.1, sound_argsCode hnames rest h.2⟩

end

/-! ### Statements -/

section
variable {n : Nat}

theorem sound_ifEnd :
    Sound (.label (ifEnd n)) ∧ Sound (.goto (ifEnd n)) ∧ Sound (.ifGoto (ifEnd n)) :=
  sound_of_mem_numberedLabels (n := n) (by simp [numberedLabels])

theorem sound_ifElse :
    Sound (.label (ifElse n)) ∧ Sound (.goto (ifElse n)) ∧ Sound (.ifGoto (ifElse n)) :=
  sound_of_mem_numberedLabels (n := n) (by simp [numberedLabels])

theorem sound_whileStart :
    Sound (.label (whileStart n)) ∧ Sound (.goto (whileStart n)) ∧ Sound (.ifGoto (whileStart n)) :=
  sound_of_mem_numberedLabels (n := n) (by simp [numberedLabels])

theorem sound_whileEnd :
    Sound (.label (whileEnd n)) ∧ Sound (.goto (whileEnd n)) ∧ Sound (.ifGoto (whileEnd n)) :=
  sound_of_mem_numberedLabels (n := n) (by simp [numberedLabels])

theorem sound_arith (op : VM.ArithOp) : Sound (.arith op) := sound_of_names_eq_nil rfl trivial

theorem sound_ret : Sound .ret := sound_of_names_eq_nil rfl trivial

end

mutual

theorem Statement.sound_code {names : Naming} (hnames : names.Spelled) (n : Nat) :
    ∀ s : Statement, s.Spelled → ∀ c ∈ s.code names n, Sound c
  | .assign x value, h => by
    rw [Statement.Spelled] at h
    rw [Statement.code]
    exact List.forall_mem_append.mpr ⟨value.sound_code hnames h.2, names.sound_popCode x⟩
  | .assignElement array subscript value, h => by
    rw [Statement.Spelled] at h
    rw [Statement.code]
    have hlast : ∀ c ∈ [Command.pop .temp 0, .pop .pointer 1, .push .temp 0, .pop .that 0],
        Sound c := by
      simp only [List.forall_mem_cons]
      exact ⟨sound_of_names_eq_nil rfl (by decide), sound_of_names_eq_nil rfl (by decide),
        sound_of_names_eq_nil rfl (by decide), sound_of_names_eq_nil rfl (by decide),
        List.forall_mem_nil _⟩
    simp only [List.forall_mem_append]
    exact ⟨⟨⟨⟨names.sound_pushCode array, subscript.sound_code hnames h.2.1⟩,
      List.forall_mem_singleton.mpr (sound_arith _)⟩, value.sound_code hnames h.2.2⟩, hlast⟩
  | .ifThen condition body, h => by
    rw [Statement.Spelled] at h
    rw [Statement.code]
    simp only [List.forall_mem_append, List.forall_mem_cons]
    exact ⟨⟨⟨condition.sound_code hnames h.1, sound_arith _, sound_ifEnd.2.2,
      List.forall_mem_nil _⟩, sound_statementsCode hnames _ body h.2⟩, sound_ifEnd.1,
      List.forall_mem_nil _⟩
  | .ifElse condition body alternative, h => by
    rw [Statement.Spelled] at h
    rw [Statement.code]
    simp only [List.forall_mem_append, List.forall_mem_cons]
    exact ⟨⟨⟨⟨⟨condition.sound_code hnames h.1, sound_arith _, sound_ifElse.2.2,
      List.forall_mem_nil _⟩, sound_statementsCode hnames _ body h.2.1⟩, sound_ifEnd.2.1,
      sound_ifElse.1, List.forall_mem_nil _⟩, sound_statementsCode hnames _ alternative h.2.2⟩,
      sound_ifEnd.1, List.forall_mem_nil _⟩
  | .while condition body, h => by
    rw [Statement.Spelled] at h
    rw [Statement.code]
    simp only [List.forall_mem_append, List.forall_mem_cons]
    exact ⟨⟨⟨⟨⟨sound_whileStart.1, List.forall_mem_nil _⟩, condition.sound_code hnames h.1⟩,
      sound_arith _, sound_whileEnd.2.2, List.forall_mem_nil _⟩,
      sound_statementsCode hnames _ body h.2⟩, sound_whileStart.2.1, sound_whileEnd.1,
      List.forall_mem_nil _⟩
  | .do call, h => by
    rw [Statement.Spelled] at h
    rw [Statement.code]
    exact List.forall_mem_append.mpr ⟨call.sound_code hnames h,
      List.forall_mem_singleton.mpr (sound_of_names_eq_nil rfl (by decide))⟩
  | .return (some value), h => by
    rw [Statement.Spelled] at h
    rw [Statement.code]
    exact List.forall_mem_append.mpr ⟨value.sound_code hnames h,
      List.forall_mem_singleton.mpr sound_ret⟩
  | .return none, _ => by
    rw [Statement.code]
    exact List.forall_mem_cons.mpr ⟨sound_push 0, List.forall_mem_singleton.mpr sound_ret⟩

theorem sound_statementsCode {names : Naming} (hnames : names.Spelled) (n : Nat) :
    ∀ body : List Statement, AllSpelled body → ∀ c ∈ statementsCode names n body, Sound c
  | [], _ => by
    rw [statementsCode]
    exact List.forall_mem_nil _
  | s :: rest, h => by
    rw [AllSpelled] at h
    rw [statementsCode]
    exact List.forall_mem_append.mpr ⟨s.sound_code hnames n h.1,
      sound_statementsCode hnames _ rest h.2⟩

end

/-! ### Subroutines -/

theorem TypeName.isIdentifier_name {type : TypeName} (h : type.Spelled) :
    IsIdentifier type.name.toList := by
  cases type with
  | named x => exact h.isIdentifier
  | int | char | boolean => decide

theorem exists_declaration {base : VarKind → Nat} {x : String} {ds : List Declaration}
    {v : Variable} (h : declared base x ds = some v) : ∃ d ∈ ds, v.type = d.type := by
  induction ds with
  | nil => cases h
  | cons d ds ih =>
    rw [declared] at h
    split at h
    · cases h
      exact ⟨d, List.mem_cons_self, rfl⟩
    · obtain ⟨d', hd', htype⟩ := ih h
      exact ⟨d', List.mem_cons_of_mem d hd', htype⟩

section
variable {c : Class} {s : Subroutine} {outer : Scope} {n : Nat}

theorem Class.isIdentifier_type (h : c.Spelled) {d : Declaration} (hd : d ∈ c.declarations) :
    IsIdentifier d.type.toList := by
  obtain ⟨dec, hdec, hd⟩ := List.mem_flatMap.mp hd
  obtain ⟨x, -, rfl⟩ := List.mem_map.mp hd
  exact TypeName.isIdentifier_name (h.classVars dec hdec).1

theorem Subroutine.isIdentifier_type (hc : IsIdentifier c.name.name.toList) (h : s.Spelled)
    {d : Declaration} (hd : d ∈ s.declarations c.name.name) : IsIdentifier d.type.toList := by
  unfold Subroutine.declarations at hd
  rw [List.mem_append, List.mem_append] at hd
  rcases hd with (hd | hd) | hd
  · split at hd
    · rw [List.mem_singleton.mp hd]
      exact hc
    · cases hd
  · obtain ⟨p, hp, rfl⟩ := List.mem_map.mp hd
    exact TypeName.isIdentifier_name (h.parameters p hp).1
  · obtain ⟨dec, hdec, hd⟩ := List.mem_flatMap.mp hd
    obtain ⟨x, -, rfl⟩ := List.mem_map.mp hd
    exact TypeName.isIdentifier_name (h.locals dec hdec).1

/-- In a well-spelled class, names are understood as variables of well-spelled classes. -/
theorem Subroutine.spelled_naming (hc : c.Spelled) (hs : s ∈ c.subroutines)
    (houter : ∀ x v, outer.lookup x = some v → IsIdentifier v.type.toList) :
    (s.naming c outer).Spelled := by
  refine ⟨hc.name.isIdentifier, fun x v h => ?_⟩
  rcases Option.or_eq_some_iff.mp h with h | ⟨-, h⟩
  · obtain ⟨d, hd, htype⟩ := exists_declaration h
    rw [htype]
    exact Subroutine.isIdentifier_type hc.name.isIdentifier (hc.subroutines s hs)
      (List.mem_reverse.mp hd)
  · rcases Option.or_eq_some_iff.mp h with h | ⟨-, h⟩
    · obtain ⟨d, hd, htype⟩ := exists_declaration h
      rw [htype]
      exact Class.isIdentifier_type hc (List.mem_reverse.mp hd)
    · exact houter x v h

theorem SubroutineKind.sound_setupCode (kind : SubroutineKind) (fields : Nat) :
    ∀ c ∈ kind.setupCode fields, Sound c := by
  obtain ⟨-, -, -, -, halloc⟩ := isQualified_library
  have hthis : ∀ c ∈ [Command.pop .pointer 0], Sound c :=
    List.forall_mem_singleton.mpr (sound_of_names_eq_nil rfl (by decide))
  cases kind with
  | function => exact List.forall_mem_nil _
  | constructor =>
    exact List.forall_mem_cons.mpr ⟨sound_push _,
      List.forall_mem_cons.mpr ⟨sound_call _ halloc, hthis⟩⟩
  | method => exact List.forall_mem_cons.mpr ⟨sound_of_names_eq_nil rfl trivial, hthis⟩

/-- **The commands of a subroutine can be translated.** -/
theorem Subroutine.sound_code (hc : c.Spelled) (hs : s ∈ c.subroutines)
    (houter : ∀ x v, outer.lookup x = some v → IsIdentifier v.type.toList) :
    ∀ cmd ∈ s.code c outer n, Sound cmd := by
  have hspelled := hc.subroutines s hs
  refine List.forall_mem_cons.mpr
    ⟨sound_function _ ⟨_, _, hc.name.isIdentifier, hspelled.name.isIdentifier, rfl⟩, ?_⟩
  exact List.forall_mem_append.mpr ⟨s.kind.sound_setupCode _,
    sound_statementsCode (Subroutine.spelled_naming hc hs houter) n s.body hspelled.body⟩

theorem sound_subroutineCodes (hc : c.Spelled)
    (houter : ∀ x v, outer.lookup x = some v → IsIdentifier v.type.toList)
    {subroutines : List Subroutine} (hsub : ∀ s ∈ subroutines, s ∈ c.subroutines) :
    ∀ cmd ∈ (subroutineCodes c outer n subroutines).flatten, Sound cmd := by
  induction subroutines generalizing n with
  | nil => exact List.forall_mem_nil _
  | cons s rest ih =>
    obtain ⟨hs, hrest⟩ := List.forall_mem_cons.mp hsub
    rw [subroutineCodes, List.flatten_cons]
    exact List.forall_mem_append.mpr ⟨s.sound_code hc hs houter, ih hrest⟩

end

end JackToolchain.Jack
