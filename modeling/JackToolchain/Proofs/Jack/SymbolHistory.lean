import JackToolchain.Proofs.Jack.VariableBounds

/-!
# Symbol tables and their histories

A symbol table is asked for definitions, which it accepts or refuses, and to begin new subroutines,
any number of times and in any order.  What it answers then depends on the definitions that it has
accepted, and on nothing else: those of kinds of the class, ever, and those of the other kinds,
since it last began a subroutine (`definitions`).

A scope keeps in step with its definitions (`Records`).  One definition more is one step
(`Records.define`), and a whole history is a sequence of such steps (`records_after`).
`answers_from_history` reads off what the table answers.
-/

namespace JackToolchain.Jack

/-! ### Histories -/

/-- What a variable says, with its index as a number. -/
def Variable.entry (v : Variable) : Declaration × Nat := (⟨v.name, v.type, v.kind⟩, v.index.toNat)

/-- The newest of the declarations of a name, with the number of older ones of its kind.
Declarations are given newest first. -/
def latest? (name : String) : List Declaration → Option (Declaration × Nat)
  | [] => none
  | d :: older => if d.name = name then some (d, countOfKind d.kind older) else latest? name older

namespace Scope

/-- A definition is refused if its kind has no index left, and only then. -/
theorem define_eq_none_iff {s : Scope} {name type : String} {kind : VarKind} :
    (s.define name type kind).1 = none ↔ Word.maxNat ≤ s.count kind := by
  obtain ⟨bindings, counts⟩ := s
  simp only [define, count]
  split <;> simp <;> omega

theorem define_of_eq_none {s : Scope} {name type : String} {kind : VarKind}
    (h : (s.define name type kind).1 = none) : (s.define name type kind).2 = s := by
  obtain ⟨bindings, counts⟩ := s
  simp only [define] at h ⊢
  split at h
  · cases h
  · next hindex => rw [if_neg hindex]

end Scope

namespace SymbolTable

/-- What changes a table. -/
inductive Operation where
  | define (d : Declaration)
  | reset
deriving Repr, DecidableEq

/-- A table that has been changed. -/
def change (t : SymbolTable) : Operation → SymbolTable
  | .define d => (t.define d.name d.type d.kind).2
  | .reset => t.reset

/-- The table behind a history, which is given newest first. -/
def after : List Operation → SymbolTable
  | [] => empty
  | op :: earlier => (after earlier).change op

/-- The definitions that have been accepted in the current life of a scope, newest first: that of
the class lives for ever, that of the subroutine since the last reset. -/
def definitions (ofClass : Bool) : List Operation → List Declaration
  | [] => []
  | .define d :: earlier =>
    if d.kind.ofClass = ofClass ∧ ((after earlier).define d.name d.type d.kind).1.isSome then
      d :: definitions ofClass earlier
    else definitions ofClass earlier
  | .reset :: earlier => if ofClass then definitions ofClass earlier else []

/-- One of the two scopes. -/
def scope (t : SymbolTable) (ofClass : Bool) : Scope :=
  if ofClass then t.ofClass else t.ofSubroutine

theorem count_eq (t : SymbolTable) (kind : VarKind) :
    t.count kind = (t.scope kind.ofClass).count kind := by
  unfold count scope
  split <;> rfl

theorem lookup_eq (t : SymbolTable) (name : String) :
    t.lookup name = ((t.scope false).lookup name).or ((t.scope true).lookup name) := rfl

/-- The scope that a kind belongs to decides whether a definition is accepted. -/
theorem define_fst (t : SymbolTable) (name type : String) (kind : VarKind) :
    (t.define name type kind).1 = ((t.scope kind.ofClass).define name type kind).1 := by
  simp only [define, scope]
  split <;> rfl

/-- The other scope stays as it is. -/
theorem scope_define (t : SymbolTable) (name type : String) (kind : VarKind) (ofClass : Bool) :
    (t.define name type kind).2.scope ofClass =
      if kind.ofClass = ofClass then ((t.scope ofClass).define name type kind).2
      else t.scope ofClass := by
  cases hkind : kind.ofClass <;> cases ofClass <;> simp [define, scope, hkind]

theorem define_of_eq_none {t : SymbolTable} {name type : String} {kind : VarKind}
    (h : (t.define name type kind).1 = none) : (t.define name type kind).2 = t := by
  rw [define_fst] at h
  unfold define
  by_cases hkind : kind.ofClass = true
  · simp only [scope, if_pos hkind] at h ⊢
    rw [Scope.define_of_eq_none h]
  · simp only [scope, if_neg hkind] at h ⊢
    rw [Scope.define_of_eq_none h]

theorem scope_reset (t : SymbolTable) (ofClass : Bool) :
    t.reset.scope ofClass = if ofClass then t.scope ofClass else .empty := by
  cases ofClass <;> rfl

/-- What has been accepted in a scope is of a kind that belongs there. -/
theorem ofClass_of_mem_definitions {ofClass : Bool} {history : List Operation} {d : Declaration}
    (h : d ∈ definitions ofClass history) : d.kind.ofClass = ofClass := by
  induction history with
  | nil => cases h
  | cons op earlier ih =>
    cases op with
    | define e =>
      rw [definitions] at h
      split at h
      · next haccepted =>
        rcases List.mem_cons.mp h with rfl | h
        · exact haccepted.1
        · exact ih h
      · exact ih h
    | reset =>
      rw [definitions] at h
      split at h
      · exact ih h
      · cases h

end SymbolTable

/-! ### Scopes and their definitions -/

/-- A scope that has been given some definitions, newest first, and no others. -/
structure Records (s : Scope) (ds : List Declaration) : Prop where
  lookup : ∀ name, s.lookup name = declared (fun _ => 0) name ds
  count : ∀ kind, s.count kind = countOfKind kind ds
  limit : ∀ kind, countOfKind kind ds ≤ Word.maxNat

namespace Records

variable {s : Scope} {ds : List Declaration} {d : Declaration}

theorem empty : Records .empty [] where
  lookup := Scope.lookup_empty
  count := Scope.count_empty
  limit _ := Nat.zero_le _

/-- **One definition more** that is accepted. -/
theorem define (h : Records s ds) (hd : (s.define d.name d.type d.kind).1.isSome) :
    Records (s.define d.name d.type d.kind).2 (d :: ds) := by
  obtain ⟨v, hv⟩ := Option.isSome_iff_exists.mp hd
  have hdefine : s.define d.name d.type d.kind = (some v, (s.define d.name d.type d.kind).2) :=
    Prod.ext hv rfl
  have hcount (kind : VarKind) : (s.define d.name d.type d.kind).2.count kind =
      countOfKind kind (d :: ds) := by
    rw [Scope.count_of_define hdefine, h.count, Nat.add_comm]
    exact (countOfKind_append kind [d] ds).symm
  refine ⟨fun name => ?_, hcount, fun kind => ?_⟩
  · have hzero : s.count = fun kind => 0 + countOfKind kind ds := by
      funext kind
      rw [h.count, Nat.zero_add]
    rw [Scope.lookup_of_define hdefine, h.lookup, hzero, ← declared_append]
    rfl
  · rw [← hcount]
    exact Scope.count_le_of_define hdefine ((h.count kind).trans_le (h.limit kind))

/-- A scope answers the newest definition of a name. -/
theorem map_entry_lookup (h : Records s ds) (name : String) :
    (s.lookup name).map Variable.entry = latest? name ds := by
  rw [h.lookup]
  have hlimit := h.limit
  clear h
  induction ds with
  | nil => rfl
  | cons d older ih =>
    have hgrows (kind : VarKind) : countOfKind kind older ≤ Word.maxNat :=
      ((List.sublist_cons_self d older).countP_le).trans (hlimit kind)
    rw [declared, latest?]
    split
    · have hindex : (BitVec.ofNat 16 (0 + countOfKind d.kind older)).toNat =
          countOfKind d.kind older := by
        have hle := hgrows d.kind
        unfold Word.maxNat at hle
        rw [BitVec.toNat_ofNat]
        omega
      simp only [Option.map_some, Variable.entry, hindex]
    · exact ih hgrows

end Records

/-! ### Tables and their histories -/

namespace SymbolTable

/-- **Both scopes keep in step** with what has been accepted. -/
theorem records_after (ofClass : Bool) (history : List Operation) :
    Records ((after history).scope ofClass) (definitions ofClass history) := by
  induction history with
  | nil =>
    cases ofClass
    · exact .empty
    · exact .empty
  | cons op earlier ih =>
    cases op with
    | define d =>
      rw [after, change, scope_define, definitions, define_fst]
      by_cases hkind : d.kind.ofClass = ofClass
      · subst hkind
        rw [if_pos rfl]
        by_cases haccepted :
          (((after earlier).scope d.kind.ofClass).define d.name d.type d.kind).1.isSome
        · rw [if_pos ⟨rfl, haccepted⟩]
          exact ih.define haccepted
        · rw [if_neg fun h => haccepted h.2, Scope.define_of_eq_none (by simpa using haccepted)]
          exact ih
      · rw [if_neg hkind, if_neg fun h => hkind h.1]
        exact ih
    | reset =>
      rw [after, change, scope_reset, definitions]
      cases ofClass
      · exact .empty
      · exact ih

theorem count_after (history : List Operation) (kind : VarKind) :
    (after history).count kind = countOfKind kind (definitions kind.ofClass history) := by
  rw [count_eq, (records_after _ history).count]

/-- A variable is found again at its index, among the accepted definitions of its kind. -/
theorem declaration_of_lookup_after {history : List Operation} {name : String} {v : Variable}
    (h : (after history).lookup name = some v) :
    ∃ d, (ofKind v.kind (definitions v.kind.ofClass history).reverse)[v.index.toNat]? = some d ∧
      d.name = name := by
  have hscope (ofClass : Bool) (hv : ((after history).scope ofClass).lookup name = some v) :
      ∃ d, (ofKind v.kind (definitions v.kind.ofClass history).reverse)[v.index.toNat]? = some d ∧
      d.name = name := by
    have hrecords := records_after ofClass history
    obtain ⟨d, hd, hname⟩ :=
      declaration_of_declared ((hrecords.lookup name).symm.trans hv) hrecords.limit
    obtain ⟨hmem, hkind⟩ := List.mem_filter.mp (List.mem_of_getElem? hd)
    rw [← eq_of_beq hkind, ofClass_of_mem_definitions (List.mem_reverse.mp hmem), eq_of_beq hkind]
    exact ⟨d, hd, hname⟩
  rw [lookup_eq] at h
  rcases Option.or_eq_some_iff.mp h with h | ⟨-, h⟩
  · exact hscope false h
  · exact hscope true h

theorem index_lt_count_after {history : List Operation} {name : String} {v : Variable}
    (h : (after history).lookup name = some v) : v.index.toNat < (after history).count v.kind := by
  obtain ⟨d, hd, -⟩ := declaration_of_lookup_after h
  rw [count_after, ← countOfKind_reverse, ← length_ofKind]
  exact (List.getElem?_eq_some_iff.mp hd).1

/-- **A table answers from its history.**  A name stands for the newest definition that has been
accepted in the scope of the subroutine, or else in that of the class, and its index is the number
of older ones of its kind.  The count of a kind is the number of its definitions.  A definition is
refused if that count is 65535, and the table is then left as it is.  Different names of one kind
have different indices below its count. -/
theorem answers_from_history (history : List Operation) :
    (∀ name, ((after history).lookup name).map Variable.entry =
      (latest? name (definitions false history)).or (latest? name (definitions true history))) ∧
    (∀ kind, (after history).count kind = countOfKind kind (definitions kind.ofClass history)) ∧
    (∀ name type kind, ((after history).define name type kind).1 = none ↔
      countOfKind kind (definitions kind.ofClass history) = Word.maxNat) ∧
    (∀ name type kind, ((after history).define name type kind).1 = none →
      ((after history).define name type kind).2 = after history) ∧
    ∀ x y v w, x ≠ y → (after history).lookup x = some v → (after history).lookup y = some w →
      v.kind = w.kind → v.index ≠ w.index ∧ v.index.toNat < (after history).count v.kind ∧
        w.index.toNat < (after history).count v.kind := by
  refine ⟨fun name => ?_, count_after history, fun name type kind => ?_,
    fun _ _ _ => define_of_eq_none, fun x y v w hxy hv hw hkind => ⟨fun hindex => hxy ?_,
    index_lt_count_after hv, hkind ▸ index_lt_count_after hw⟩⟩
  · rw [lookup_eq, Option.map_or, (records_after false history).map_entry_lookup,
      (records_after true history).map_entry_lookup]
  · have hrecords := records_after kind.ofClass history
    rw [define_fst, Scope.define_eq_none_iff, hrecords.count]
    have hle := hrecords.limit kind
    omega
  · obtain ⟨d, hd, rfl⟩ := declaration_of_lookup_after hv
    obtain ⟨e, he, rfl⟩ := declaration_of_lookup_after hw
    rw [hkind, hindex, he] at hd
    cases hd
    rfl

/-- As many definitions of one kind as it has indices are all accepted. -/
theorem countOfKind_replicate (d : Declaration) {n : Nat} (hn : n ≤ Word.maxNat) :
    countOfKind d.kind (definitions d.kind.ofClass (List.replicate n (.define d))) = n := by
  induction n with
  | zero => rfl
  | succ n ih =>
    have hcount := ih (Nat.le_of_succ_le hn)
    have haccepted :
        ((after (List.replicate n (.define d))).define d.name d.type d.kind).1.isSome := by
      rw [Option.isSome_iff_ne_none, define_fst, ne_eq, Scope.define_eq_none_iff,
        (records_after _ _).count, hcount]
      omega
    rw [List.replicate_succ, definitions, if_pos ⟨rfl, haccepted⟩, countOfKind,
      List.countP_cons_of_pos (by simp)]
    exact congrArg (· + 1) hcount

/-- A history, newest first: two fields, and between them an argument with the name of the second
one, which has been forgotten. -/
def twoFields : List Operation :=
  [.reset, .define ⟨"y", "int", .field⟩, .define ⟨"x", "int", .argument⟩, .reset,
    .define ⟨"x", "int", .field⟩]

/-- The two fields are told apart, and a table without indices for local variables stays as it
is. -/
theorem answers_from_history_fields :
    (∃ v w, (after twoFields).lookup "x" = some v ∧ (after twoFields).lookup "y" = some w ∧
      v.kind = w.kind ∧ v.index ≠ w.index) ∧
    ((after (List.replicate 65535 (.define ⟨"x", "int", .local⟩))).define "y" "int" .local).2 =
      after (List.replicate 65535 (.define ⟨"x", "int", .local⟩)) := by
  constructor
  · obtain ⟨hlookup, -, -, -, hindex⟩ := answers_from_history twoFields
    have hx : ((after twoFields).lookup "x").map Variable.entry = some (⟨"x", "int", .field⟩, 0) :=
      (hlookup "x").trans (by decide)
    have hy : ((after twoFields).lookup "y").map Variable.entry = some (⟨"y", "int", .field⟩, 1) :=
      (hlookup "y").trans (by decide)
    obtain ⟨v, hv, hventry⟩ := Option.map_eq_some_iff.mp hx
    obtain ⟨w, hw, hwentry⟩ := Option.map_eq_some_iff.mp hy
    have hkind : v.kind = w.kind :=
      (congrArg (fun e => e.1.kind) hventry).trans (congrArg (fun e => e.1.kind) hwentry).symm
    exact ⟨v, w, hv, hw, hkind, (hindex "x" "y" v w (by decide) hv hw hkind).1⟩
  · obtain ⟨-, -, hrefused, hstays, -⟩ :=
      answers_from_history (List.replicate 65535 (.define ⟨"x", "int", .local⟩))
    exact hstays "y" "int" .local ((hrefused "y" "int" .local).mpr
      (countOfKind_replicate ⟨"x", "int", .local⟩ (le_refl 65535)))

end SymbolTable

end JackToolchain.Jack
