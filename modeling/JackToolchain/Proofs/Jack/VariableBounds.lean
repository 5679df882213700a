import JackToolchain.Proofs.Jack.FunctionBlocks

/-!
# Variables stay where there is room for them

A name is used long after it has been declared, and all that the use knows is an index.  The index
is the place of the declaration among those of its kind (`Subroutine.declaration_of_lookup`).  So it
is below the number of declarations of the kind, and different names have different places, also
where a name that is declared twice leaves a place behind that nobody uses.

Apart from the object that a method obtains, the only cells of these segments that generated code
reaches are those of names (`statementsCode_reaches`).  And for each kind there is room for as many
variables as are declared: the `function` command makes room for the locals, the caller for the
arguments and a constructor for the fields (`inBounds_of_compile`).
-/

namespace JackToolchain.Jack

open VM (Command Segment readProgram)

/-! ### Places of declarations -/

/-- The declarations of a kind. -/
def ofKind (kind : VarKind) (declarations : List Declaration) : List Declaration :=
  declarations.filter fun d => d.kind == kind

theorem length_ofKind (kind : VarKind) (ds : List Declaration) :
    (ofKind kind ds).length = countOfKind kind ds :=
  List.countP_eq_length_filter.symm

theorem ofKind_append (kind : VarKind) (xs ys : List Declaration) :
    ofKind kind (xs ++ ys) = ofKind kind xs ++ ofKind kind ys := List.filter_append ..

theorem ofKind_eq_nil {kind : VarKind} {ds : List Declaration} (h : ∀ d ∈ ds, d.kind ≠ kind) :
    ofKind kind ds = [] :=
  List.filter_eq_nil_iff.mpr fun d hd => by simpa using h d hd

theorem countOfKind_reverse (kind : VarKind) (ds : List Declaration) :
    countOfKind kind ds.reverse = countOfKind kind ds := List.countP_reverse ..

theorem countOfKind_append (kind : VarKind) (xs ys : List Declaration) :
    countOfKind kind (xs ++ ys) = countOfKind kind xs + countOfKind kind ys := List.countP_append ..

theorem countOfKind_eq_zero {kind : VarKind} {ds : List Declaration} (h : ∀ d ∈ ds, d.kind ≠ kind) :
    countOfKind kind ds = 0 := List.countP_eq_zero.mpr fun d hd => by simpa using h d hd

/-- **An index is the place of a declaration** among those of its kind. -/
theorem declaration_of_declared {x : String} {newestFirst : List Declaration} {v : Variable}
    (h : declared (fun _ => 0) x newestFirst = some v)
    (hlimit : ∀ k, countOfKind k newestFirst ≤ Word.maxNat) :
    ∃ d, (ofKind v.kind newestFirst.reverse)[v.index.toNat]? = some d ∧ d.name = x := by
  induction newestFirst with
  | nil => cases h
  | cons d older ih =>
    have hgrows (k : VarKind) : countOfKind k older ≤ countOfKind k (d :: older) :=
      (List.sublist_cons_self d older).countP_le
    rw [declared] at h
    rw [List.reverse_cons, ofKind_append]
    split at h
    · next hname =>
      cases h
      have hindex : (BitVec.ofNat 16 (0 + countOfKind d.kind older)).toNat =
          (ofKind d.kind older.reverse).length := by
        have hle := (hgrows d.kind).trans (hlimit d.kind)
        unfold Word.maxNat at hle
        rw [length_ofKind, countOfKind_reverse, BitVec.toNat_ofNat]
        omega
      have hlast : ofKind d.kind [d] = [d] := List.filter_eq_self.mpr (by simp)
      refine ⟨d, ?_, hname⟩
      rw [hindex, hlast]
      exact List.getElem?_concat_length
    · obtain ⟨d', hd', hname⟩ := ih h fun k => (hgrows k).trans (hlimit k)
      refine ⟨d', ?_, hname⟩
      rw [List.getElem?_append_left (List.getElem?_eq_some_iff.mp hd').1]
      exact hd'

section
variable {c : Class} {s : Subroutine} {x y : String} {v w : Variable}

/-- The indices of the variables of a subroutine are words. -/
structure Countable (s : Subroutine) (c : Class) : Prop where
  ofClass : ∀ kind, countOfKind kind c.declarations ≤ Word.maxNat
  ofSubroutine : ∀ kind, countOfKind kind (s.declarations c.name.name) ≤ Word.maxNat

/-- The variables that are visible in a subroutine, in order. -/
def Subroutine.visible (s : Subroutine) (c : Class) : List Declaration :=
  s.declarations c.name.name ++ c.declarations

/-- A name stands for a declaration with this name, at the place that its index says. -/
theorem Subroutine.declaration_of_lookup (hs : Countable s c)
    (h : (s.naming c .empty).lookup x = some v) :
    ∃ d, (ofKind v.kind (s.visible c))[v.index.toNat]? = some d ∧ d.name = x := by
  have hzero : Scope.empty.count = fun _ => 0 := funext Scope.count_empty
  have hreverse {ds : List Declaration} (hlimit : ∀ k, countOfKind k ds ≤ Word.maxNat) :
      ∀ k, countOfKind k ds.reverse ≤ Word.maxNat :=
    fun k => (countOfKind_reverse k ds).trans_le (hlimit k)
  unfold Subroutine.visible
  rw [ofKind_append]
  simp only [Subroutine.naming, Scope.lookup_empty, hzero, Option.or_none] at h
  rcases Option.or_eq_some_iff.mp h with h | ⟨-, h⟩
  · obtain ⟨d, hd, hname⟩ := declaration_of_declared h (hreverse hs.ofSubroutine)
    rw [List.reverse_reverse] at hd
    exact ⟨d, (List.getElem?_append_left (List.getElem?_eq_some_iff.mp hd).1).trans hd, hname⟩
  · obtain ⟨d, hd, hname⟩ := declaration_of_declared h (hreverse hs.ofClass)
    rw [List.reverse_reverse] at hd
    -- The subroutine has no variables of this kind, so those of the class come first.
    obtain ⟨hmem, hkind⟩ := List.mem_filter.mp (List.mem_of_getElem? hd)
    have hofClass : v.kind.ofClass = true :=
      beq_iff_eq.mp hkind ▸ Class.ofClass_of_mem_declarations hmem
    have hnone : ofKind v.kind (s.declarations c.name.name) = [] := ofKind_eq_nil fun e he heq => by
      rw [← heq, Subroutine.ofClass_of_mem_declarations he] at hofClass
      cases hofClass
    rw [hnone]
    exact ⟨d, hd, hname⟩

theorem Subroutine.index_lt_of_lookup (hs : Countable s c)
    (h : (s.naming c .empty).lookup x = some v) :
    v.index.toNat < countOfKind v.kind (s.visible c) := by
  obtain ⟨d, hd, -⟩ := s.declaration_of_lookup hs h
  rw [← length_ofKind]
  exact (List.getElem?_eq_some_iff.mp hd).1

/-- **Different names have different cells.** -/
theorem Subroutine.name_eq_of_lookup (hs : Countable s c)
    (hv : (s.naming c .empty).lookup x = some v) (hw : (s.naming c .empty).lookup y = some w)
    (hkind : v.kind = w.kind) (hindex : v.index = w.index) : x = y := by
  obtain ⟨d, hd, rfl⟩ := s.declaration_of_lookup hs hv
  obtain ⟨e, he, rfl⟩ := s.declaration_of_lookup hs hw
  rw [hkind, hindex, he] at hd
  cases hd
  rfl

end

/-! ### Cells that code reaches -/

/-- The cell of a segment that a command reads or writes. -/
def cell? : Command → Option (Segment × Word)
  | .push segment index | .pop segment index => some (segment, index)
  | .arith _ | .label _ | .goto _ | .ifGoto _ | .function .. | .call .. | .ret => none

/-- The segments that variables live in. -/
def holdsVariables : Segment → Bool
  | .locals | .argument | .this | .statics => true
  | .constant | .that | .pointer | .temp => false

/-- Commands that reach no cell of a variable. -/
def plain (command : Command) : Bool :=
  match cell? command with
  | some (segment, _) => !holdsVariables segment
  | none => true

/-- If a command reaches a cell of a variable, the variable has a name. -/
def ReachesNamed (names : Naming) (command : Command) : Prop :=
  ∀ segment index, cell? command = some (segment, index) → holdsVariables segment = true →
    ∃ x v, names.lookup x = some v ∧ v.kind.segment = segment ∧ v.index = index

section
variable {names : Naming}

theorem reaches_of_plain {code : List Command} (h : code.all plain = true) :
    ∀ c ∈ code, ReachesNamed names c := by
  intro c hc segment index hcell hvariables
  have hplain := List.all_eq_true.mp h c hc
  unfold plain at hplain
  rw [hcell] at hplain
  change (!holdsVariables segment) = true at hplain
  rw [hvariables] at hplain
  cases hplain

theorem Naming.pushCode_reaches (x : Ident) : ∀ c ∈ names.pushCode x, ReachesNamed names c := by
  unfold Naming.pushCode
  split
  · next v hv =>
    refine List.forall_mem_singleton.mpr fun segment index hcell _ => ?_
    cases hcell
    exact ⟨_, v, hv, rfl, rfl⟩
  · exact List.forall_mem_nil _

theorem Naming.popCode_reaches (x : Ident) : ∀ c ∈ names.popCode x, ReachesNamed names c := by
  unfold Naming.popCode
  split
  · next v hv =>
    refine List.forall_mem_singleton.mpr fun segment index hcell _ => ?_
    cases hcell
    exact ⟨_, v, hv, rfl, rfl⟩
  · exact List.forall_mem_nil _

theorem Naming.receiverCode_reaches (receiver : Option Ident) :
    ∀ c ∈ names.receiverCode receiver, ReachesNamed names c := by
  cases receiver with
  | none => exact reaches_of_plain rfl
  | some x => exact names.pushCode_reaches x

theorem plain_appendCode (units : List Word) : (appendCode units).all plain = true := by
  induction units with
  | nil => rfl
  | cons unit rest ih => exact ih

theorem Literal.plain_code (value : Literal) : value.code.all plain := by
  cases value with
  | int | true | false | null | this => rfl
  | string contents =>
    show (stringCode contents).all plain
    rw [stringCode, List.all_append, plain_appendCode]
    rfl

theorem plain_unaryCommand (op : UnaryOp) : plain (Generation.unaryCommand op) = true := by
  cases op <;> rfl

theorem plain_binaryCommand (op : BinaryOp) : plain (Generation.binaryCommand op) = true := by
  cases op <;> rfl

mutual

theorem Term.code_reaches : ∀ t : Term, ∀ c ∈ t.code names, ReachesNamed names c
  | .literal value => by
    rw [Term.code]
    exact reaches_of_plain value.plain_code
  | .var x => by
    rw [Term.code]
    exact names.pushCode_reaches x
  | .element array subscript => by
    rw [Term.code]
    simp only [List.forall_mem_append]
    exact ⟨⟨names.pushCode_reaches array, subscript.code_reaches⟩, reaches_of_plain rfl⟩
  | .call call => by
    rw [Term.code]
    exact call.code_reaches
  | .paren inner => by
    rw [Term.code]
    exact inner.code_reaches
  | .unary op operand => by
    rw [Term.code]
    simp only [List.forall_mem_append]
    exact ⟨operand.code_reaches, reaches_of_plain (by simp [plain_unaryCommand])⟩

theorem Expr.code_reaches : ∀ e : Expr, ∀ c ∈ e.code names, ReachesNamed names c
  | .mk head tail => by
    rw [Expr.code]
    simp only [List.forall_mem_append]
    exact ⟨head.code_reaches, operandsCode_reaches tail⟩

theorem operandsCode_reaches :
    ∀ operands : List Operand, ∀ c ∈ operandsCode names operands, ReachesNamed names c
  | [] => by
    rw [operandsCode]
    exact List.forall_mem_nil _
  | .mk op term :: rest => by
    rw [operandsCode, ← List.singleton_append]
    simp only [List.forall_mem_append]
    exact ⟨term.code_reaches, reaches_of_plain (by simp [plain_binaryCommand]),
      operandsCode_reaches rest⟩

theorem Call.code_reaches : ∀ call : Call, ∀ c ∈ call.code names, ReachesNamed names c
  | .mk receiver name _ args => by
    rw [Call.code]
    simp only [List.forall_mem_append]
    exact ⟨⟨names.receiverCode_reaches receiver, argsCode_reaches args⟩, reaches_of_plain rfl⟩

theorem argsCode_reaches : ∀ args : List Expr, ∀ c ∈ argsCode names args, ReachesNamed names c
  | [] => by
    rw [argsCode]
    exact List.forall_mem_nil _
  | arg :: rest => by
    rw [argsCode]
    simp only [List.forall_mem_append]
    exact ⟨arg.code_reaches, argsCode_reaches rest⟩

end

mutual

theorem Statement.code_reaches (n : Nat) :
    ∀ s : Statement, ∀ c ∈ s.code names n, ReachesNamed names c
  | .assign x value => by
    rw [Statement.code]
    simp only [List.forall_mem_append]
    exact ⟨value.code_reaches, names.popCode_reaches x⟩
  | .assignElement array subscript value => by
    rw [Statement.code]
    simp only [List.forall_mem_append]
    exact ⟨⟨⟨⟨names.pushCode_reaches array, subscript.code_reaches⟩, reaches_of_plain rfl⟩,
      value.code_reaches⟩, reaches_of_plain rfl⟩
  | .ifThen condition body => by
    rw [Statement.code]
    simp only [List.forall_mem_append]
    exact ⟨⟨⟨condition.code_reaches, reaches_of_plain rfl⟩, statementsCode_reaches _ body⟩,
      reaches_of_plain rfl⟩
  | .ifElse condition body alternative => by
    rw [Statement.code]
    simp only [List.forall_mem_append]
    exact ⟨⟨⟨⟨⟨condition.code_reaches, reaches_of_plain rfl⟩, statementsCode_reaches _ body⟩,
      reaches_of_plain rfl⟩, statementsCode_reaches _ alternative⟩, reaches_of_plain rfl⟩
  | .while condition body => by
    rw [Statement.code]
    simp only [List.forall_mem_append]
    exact ⟨⟨⟨⟨reaches_of_plain rfl, condition.code_reaches⟩, reaches_of_plain rfl⟩,
      statementsCode_reaches _ body⟩, reaches_of_plain rfl⟩
  | .do call => by
    rw [Statement.code]
    simp only [List.forall_mem_append]
    exact ⟨call.code_reaches, reaches_of_plain rfl⟩
  | .return (some value) => by
    rw [Statement.code]
    simp only [List.forall_mem_append]
    exact ⟨value.code_reaches, reaches_of_plain rfl⟩
  | .return none => by
    rw [Statement.code]
    exact reaches_of_plain rfl

/-- **Statements reach the variables of names**, and no others. -/
theorem statementsCode_reaches (n : Nat) :
    ∀ body : List Statement, ∀ c ∈ statementsCode names n body, ReachesNamed names c
  | [] => by
    rw [statementsCode]
    exact List.forall_mem_nil _
  | s :: rest => by
    rw [statementsCode]
    simp only [List.forall_mem_append]
    exact ⟨s.code_reaches n, statementsCode_reaches _ rest⟩

end

end

/-! ### Room for the variables of a subroutine -/

/-- The function of a subroutine reaches no variables but those that there is room for.  The objects
of its class have the given number of fields. -/
structure InBounds (c : Class) (fields : Word) (s : Subroutine) (block : List Command) : Prop where
  locals : ∃ name count, block[0]? = some (.function name count) ∧
    ∀ command ∈ block, ∀ index, cell? command = some (.locals, index) → index.toNat < count.toNat
  arguments : ∀ command ∈ block, ∀ index, cell? command = some (.argument, index) →
    index.toNat < s.parameters.length + if s.kind = .method then 1 else 0
  ofObject : ∀ command ∈ block, ∀ index, cell? command = some (.this, index) →
    index.toNat < fields.toNat
  /-- A constructor allocates an object with all fields. -/
  allocates : s.kind = .constructor → ∃ name count rest,
    block = .function name count :: .push .constant fields :: .call "Memory.alloc" 1 :: rest
  statics : ∀ command ∈ block, ∀ index, cell? command = some (.statics, index) →
    index.toNat < countOfKind .static c.declarations
  /-- Variables with different names do not share a cell. -/
  apart : ∀ x y v w, (s.naming c .empty).lookup x = some v → (s.naming c .empty).lookup y = some w →
    x ≠ y → (v.kind.segment, v.index) ≠ (w.kind.segment, w.index)

theorem VarKind.segment_inj {j k : VarKind} (h : j.segment = k.segment) : j = k := by
  cases j <;> cases k <;> simp [segment] at h ⊢

section
variable {c : Class} {s : Subroutine}

/-- A kind of variables belongs to the class or to the subroutine. -/
theorem Subroutine.countOfKind_visible (kind : VarKind) : countOfKind kind (s.visible c) =
    if kind.ofClass then countOfKind kind c.declarations
    else countOfKind kind (s.declarations c.name.name) := by
  unfold Subroutine.visible
  rw [countOfKind_append]
  split
  · next hkind =>
    have hnone : countOfKind kind (s.declarations c.name.name) = 0 :=
      countOfKind_eq_zero fun d hd heq => by
      rw [← heq, Subroutine.ofClass_of_mem_declarations hd] at hkind
      cases hkind
    rw [hnone, Nat.zero_add]
  · next hkind =>
    have hnone : countOfKind kind c.declarations = 0 := countOfKind_eq_zero fun d hd heq =>
      hkind (heq ▸ Class.ofClass_of_mem_declarations hd)
    rw [hnone, Nat.add_zero]

theorem Subroutine.countOfKind_argument (className : String) :
    countOfKind .argument (s.declarations className) = s.parameters.length + if s.kind = .method
      then 1 else 0 := by
  unfold Subroutine.declarations
  rw [countOfKind_append, countOfKind_append]
  have hthis : countOfKind .argument (if s.kind = .method then [⟨"this", className, .argument⟩]
    else []) =
      if s.kind = .method then 1 else 0 := by
    split <;> rfl
  have hparameters : countOfKind .argument (s.parameters.map fun p => ⟨p.name.name, p.type.name,
      .argument⟩) = s.parameters.length := by
    simp [countOfKind, List.countP_map]
  have hlocals : countOfKind .argument (s.locals.flatMap fun d => d.names.map fun x =>
    ⟨x.name, d.type.name, .local⟩) =
      0 := by
    refine countOfKind_eq_zero fun d hd => ?_
    obtain ⟨dec, -, hd⟩ := List.mem_flatMap.mp hd
    obtain ⟨x, -, rfl⟩ := List.mem_map.mp hd
    exact VarKind.noConfusion
  rw [hthis, hparameters, hlocals, Nat.add_zero, Nat.add_comm]

theorem VarKind.holdsVariables_segment (kind : VarKind) : holdsVariables kind.segment = true := by
  cases kind <;> rfl

/-- The only cell of a variable that a subroutine reaches in order to obtain its object is the first
argument of a method, which no name stands for. -/
theorem SubroutineKind.cell_of_mem_setupCode {kind : SubroutineKind} {count : Nat}
    {command : Command} {segment : Segment} {index : Word} (hmem : command ∈ kind.setupCode count)
    (hcell : cell? command = some (segment, index)) (hvariables : holdsVariables segment = true) :
    kind = .method ∧ segment = .argument ∧ index = 0 := by
  cases kind with
  | function => cases hmem
  | constructor =>
    simp only [setupCode, List.mem_cons, List.not_mem_nil, or_false] at hmem
    rcases hmem with rfl | rfl | rfl
    · cases hcell
      cases hvariables
    · cases hcell
    · cases hcell
      cases hvariables
  | method =>
    simp only [setupCode, List.mem_cons, List.not_mem_nil, or_false] at hmem
    rcases hmem with rfl | rfl
    · cases hcell
      exact ⟨rfl, rfl, rfl⟩
    · cases hcell
      cases hvariables

/-- **The cells of a kind that a subroutine reaches** have indices below the number of variables of
this kind. -/
theorem Subroutine.index_lt_of_cell {n : Nat} (hs : Countable s c) (kind : VarKind)
    {command : Command} {index : Word} (hmem : command ∈ s.code c .empty n)
    (hcell : cell? command = some (kind.segment, index)) :
    index.toNat < countOfKind kind (s.visible c) := by
  rcases List.mem_cons.mp hmem with rfl | hmem
  · cases hcell
  rcases List.mem_append.mp hmem with hmem | hmem
  · obtain ⟨hmethod, hsegment, rfl⟩ :=
      SubroutineKind.cell_of_mem_setupCode hmem hcell kind.holdsVariables_segment
    obtain rfl : kind = .argument := VarKind.segment_inj hsegment
    rw [Subroutine.countOfKind_visible, if_neg (by decide), s.countOfKind_argument, if_pos hmethod]
    exact Nat.succ_pos _
  · obtain ⟨x, v, hv, hsegment, rfl⟩ := statementsCode_reaches n s.body command hmem _ _ hcell
      kind.holdsVariables_segment
    rw [← VarKind.segment_inj hsegment]
    exact s.index_lt_of_lookup hs hv

theorem Class.fieldCount_empty (c : Class) :
    c.fieldCount .empty = countOfKind .field c.declarations := by
  rw [Class.fieldCount, Scope.count_empty, Nat.zero_add]

/-- **The code of a subroutine is within its bounds.** -/
theorem Subroutine.inBounds_code {n : Nat} (hs : Countable s c) :
    InBounds c (BitVec.ofNat 16 (c.fieldCount .empty)) s (s.code c .empty n) where
  locals := by
    refine ⟨_, _, rfl, fun command hmem index hcell => ?_⟩
    have hlocal := s.countOfKind_local c.name.name
    have hlt := s.index_lt_of_cell hs .local hmem hcell
    rw [Subroutine.countOfKind_visible, if_neg (by decide), hlocal] at hlt
    rwa [toNat_ofNat_of_le (hlocal ▸ hs.ofSubroutine .local)]
  arguments command hmem index hcell := by
    have hlt := s.index_lt_of_cell hs .argument hmem hcell
    rwa [Subroutine.countOfKind_visible, if_neg (by decide), s.countOfKind_argument] at hlt
  ofObject command hmem index hcell := by
    have hlt := s.index_lt_of_cell hs .field hmem hcell
    rw [Subroutine.countOfKind_visible, if_pos (by decide)] at hlt
    rwa [c.fieldCount_empty, toNat_ofNat_of_le (hs.ofClass .field)]
  allocates := by
    intro hkind
    refine ⟨c.name.name ++ "." ++ s.name.name, BitVec.ofNat 16 s.localCount,
      .pop .pointer 0 :: statementsCode (s.naming c .empty) n s.body, ?_⟩
    rw [Subroutine.code, hkind, SubroutineKind.setupCode, List.cons_append, List.cons_append,
      List.singleton_append]
  statics command hmem index hcell := by
    have hlt := s.index_lt_of_cell hs .static hmem hcell
    rwa [Subroutine.countOfKind_visible, if_pos (by decide)] at hlt
  apart x y v w hv hw hne heq := by
    obtain ⟨hsegment, hindex⟩ := Prod.mk.inj heq
    exact hne (s.name_eq_of_lookup hs hv hw (VarKind.segment_inj hsegment) hindex)

end

/-! ### Compiled functions -/

/-- The variables of a scope that has been filled have words for indices. -/
theorem countOfKind_le_of_defineEach {ds : List Declaration} {scope : Scope}
    (h : Scope.empty.defineEach ds = some scope) (kind : VarKind) :
    countOfKind kind ds ≤ Word.maxNat := by
  have hcount := Scope.count_of_defineEach h kind
  have hle : scope.count kind ≤ Word.maxNat :=
    Scope.count_le_of_defineEach h ((Scope.count_empty kind).trans_le (Nat.zero_le _))
  rwa [hcount, Scope.count_empty, Nat.zero_add] at hle

theorem countable_of_compile {c : Class} {g : Generator}
    (h : (Generator.new .unlimited).compile c = (.ok (), g)) {s : Subroutine}
    (hs : s ∈ c.subroutines) : Countable s c := by
  obtain ⟨⟨_, hclass⟩, hsubroutines⟩ := Class.scopes_of_compile h
  obtain ⟨_, hscope⟩ := hsubroutines s hs
  exact ⟨countOfKind_le_of_defineEach hclass, countOfKind_le_of_defineEach hscope⟩

/-- **Compiled functions reach the variables that there is room for.**  The locals are below the
number that the `function` command gives, the arguments below the number of parameters, the fields
below the number that every constructor of the class allocates, and the statics below the number of
statics that are declared.  Variables that are visible in one subroutine and have different names do
not share a cell. -/
theorem inBounds_of_compile {source output : String} (h : compile .vm source = .ok output) :
    ∃ c program, parseUnit source = .ok c ∧ readProgram output = .ok program ∧
      ∃ fields : Word, fields.toNat = countOfKind .field c.declarations ∧
        List.Forall₂ (InBounds c fields) c.subroutines
          (functionBlocks (program.map VM.SourceLine.command)) := by
  obtain ⟨c, g, program, hparse, hrun, hread, hall⟩ := functionBlocks_of_compile
    (P := fun c => InBounds c (BitVec.ofNat 16 (c.fieldCount .empty))) h
    fun _ _ _ hrun _ hs _ => Subroutine.inBounds_code (countable_of_compile hrun hs)
  obtain ⟨⟨_, hclass⟩, -⟩ := Class.scopes_of_compile hrun
  refine ⟨c, program, hparse, hread, _, ?_, hall⟩
  rw [c.fieldCount_empty, toNat_ofNat_of_le (countOfKind_le_of_defineEach hclass .field)]

/-- The only subroutine of the class is a constructor, which allocates the only field, and its
function is within its bounds. -/
theorem inBounds_of_compile_cell : ∃ output program c s block, compile .vm cellSource = .ok output ∧
    readProgram output = .ok program ∧ parseUnit cellSource = .ok c ∧ c.subroutines = [s] ∧
      functionBlocks (program.map VM.SourceLine.command) = [block] ∧ InBounds c 1 s block := by
  obtain ⟨output, houtput⟩ := exists_output_cell
  have hcounts : (parseUnit cellSource).toOption.map
      (fun c => (c.subroutines.length, countOfKind .field c.declarations)) = some (1, 1) := by
    decide +kernel
  obtain ⟨c, program, hparse, hread, fields, hfields, hall⟩ := inBounds_of_compile houtput
  rw [hparse] at hcounts
  obtain ⟨hsubroutines, hcount⟩ := Prod.mk.inj (Option.some.inj hcounts)
  obtain rfl : fields = 1 := BitVec.eq_of_toNat_eq (hfields.trans hcount)
  obtain ⟨s, block, hs, hblocks, hbounds⟩ := exists_of_forall₂_of_length_eq_one hall hsubroutines
  exact ⟨output, program, c, s, block, houtput, hread, hparse, hs, hblocks, hbounds⟩

end JackToolchain.Jack
