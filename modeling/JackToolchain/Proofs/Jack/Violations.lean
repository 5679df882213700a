import JackToolchain.Proofs.Jack.Demands
import JackToolchain.Proofs.Jack.SymbolHistory

/-!
# Generation reports the first violation

Generation stops at the first error.  In front of a sink that takes everything, this is the first of
the violations of the class, and generation goes through if there is none (`compile_reports_first`).

A computation `Reports` a list of errors if it fails with the first of them, and otherwise ends in a
state of which something is known.  Errors of computations in a row are those of the first one and
then those of the second one (`Reports.bind`), which is the order in which demands are listed.
There is one lemma for each step of generation, and they are put together along the tree.
-/

namespace JackToolchain.Jack

open VM (Command)

/-! ### Errors of computations -/

namespace Generation

variable {α β : Type} {before before' : Generator → Prop} {errors errors' : List CompileError}

/-- From the states in question, a computation fails with the first of some errors.  If there is
none, it succeeds, and its result and the state behind it are as described. -/
def Reports (before : Generator → Prop) (p : Generation α) (errors : List CompileError)
    (after : α → Generator → Prop) : Prop :=
  ∀ g, before g →
    match errors with
    | [] => ∃ a g', p g = .ok a g' ∧ after a g'
    | e :: _ => ∃ g', p g = .error e g'

namespace Reports

theorem pure {a : α} {after : α → Generator → Prop} (h : ∀ g, before g → after a g) :
    Reports before (Pure.pure a) [] after := fun g hg => ⟨a, g, rfl, h g hg⟩

/-- **Errors of computations in a row.** -/
theorem bind {p : Generation α} {f : α → Generation β} {mid : α → Generator → Prop}
    {after : β → Generator → Prop} (hp : Reports before p errors mid)
    (hf : ∀ a, Reports (mid a) (f a) errors' after) :
    Reports before (p >>= f) (errors ++ errors') after := by
  intro g hg
  have hfirst := hp g hg
  have hbind : (p >>= f) g = EStateM.bind p f g := rfl
  rw [hbind]
  unfold EStateM.bind
  cases errors with
  | nil =>
    obtain ⟨a, g', hok, hmid⟩ := hfirst
    rw [hok]
    exact hf a g' hmid
  | cons e rest =>
    obtain ⟨g', herror⟩ := hfirst
    rw [herror]
    exact ⟨g', rfl⟩

/-- A first computation without errors. -/
theorem next {p : Generation α} {f : α → Generation β} {mid : α → Generator → Prop}
    {after : β → Generator → Prop} (hp : Reports before p [] mid)
    (hf : ∀ a, Reports (mid a) (f a) errors after) :
    Reports before (p >>= f) errors after := hp.bind hf

/-- A last computation without errors. -/
theorem last {p : Generation α} {f : α → Generation β} {mid : α → Generator → Prop}
    {after : β → Generator → Prop} (hp : Reports before p errors mid)
    (hf : ∀ a, Reports (mid a) (f a) [] after) : Reports before (p >>= f) errors after := by
  have hbind := hp.bind hf
  rwa [List.append_nil] at hbind

/-- Whether there is an error may depend on a condition. -/
theorem errorUnless {p : Generation α} {after : α → Generator → Prop} {condition : Prop}
    [Decidable condition] {e : CompileError} (hok : condition → Reports before p [] after)
    (herror : ¬condition → Reports before p [e] after) :
    Reports before p (Jack.errorUnless condition e) after := by
  unfold Jack.errorUnless
  split
  · next h => exact hok h
  · next h => exact herror h

theorem mono {p : Generation α} {after after' : α → Generator → Prop}
    (h : Reports before p errors after) (hbefore : ∀ g, before' g → before g)
    (hafter : ∀ a g, after a g → after' a g) : Reports before' p errors after' := by
  intro g hg
  have hreports := h g (hbefore g hg)
  cases errors with
  | nil =>
    obtain ⟨a, g', hok, hmid⟩ := hreports
    exact ⟨a, g', hok, hafter a g' hmid⟩
  | cons e rest => exact hreports

end Reports

/-! ### Steps -/

/-- The symbols and the name of the class are given, and the sink takes everything. -/
structure Knows (table : SymbolTable) (className : String) (g : Generator) : Prop where
  room : g.sink.room = none
  symbols : g.symbols = table
  className : g.className = className

/-- A computation reports errors, and leaves the symbols and the name of the class as they are. -/
abbrev ReportsIn {α : Type} (table : SymbolTable) (className : String) (p : Generation α)
    (errors : List CompileError) : Prop :=
  Reports (Knows table className) p errors fun _ => Knows table className

/-- A table knows the names of a scope, as far as they can be written. -/
def HasScope (table : SymbolTable) (scope : List String) : Prop :=
  ∀ x : Ident, x.Spelled → ((table.lookup x.name).isSome = true ↔ x.name ∈ scope)

section
variable {table : SymbolTable} {className : String} {scope : List String}

theorem reports_emit (c : Command) : ReportsIn table className (emit c) [] := by
  rintro ⟨⟨room, commands, cut⟩, symbols, className, labels⟩ ⟨hroom, hsymbols, hclass⟩
  cases hroom
  exact ⟨(), _, rfl, rfl, hsymbols, hclass⟩

theorem reports_freshLabel : ReportsIn table className freshLabel [] :=
  fun _ hg => ⟨_, _, rfl, hg.room, hg.symbols, hg.className⟩

theorem reports_qualified (name : Ident) : ReportsIn table className (qualified name) [] :=
  fun g hg => ⟨_, g, rfl, hg⟩

theorem reports_countOf (kind : VarKind) : ReportsIn table className (countOf kind) [] :=
  fun g hg => ⟨_, g, rfl, hg⟩

theorem reports_lookup (x : Ident) :
    Reports (Knows table className) (lookup x) [] fun v g => v = table.lookup x.name ∧
      Knows table className g :=
  fun g hg => ⟨_, g, rfl, by rw [hg.symbols], hg⟩

theorem reports_counted (n : Nat) (quota : Quota) (span : Span) :
    ReportsIn table className (counted n quota span)
    (errorUnless (n ≤ Word.maxNat) (.tooMany quota span)) := by
  unfold counted Word.ofNat?
  refine .errorUnless (fun h => ?_) fun h => ?_
  · rw [if_pos h]
    exact .pure fun _ hg => hg
  · rw [if_neg h]
    exact fun g _ => ⟨g, rfl⟩

/-- A variable, if the name has one. -/
theorem reports_resolve (hscope : HasScope table scope) {x : Ident} (hx : x.Spelled) (use : Use) :
    ReportsIn table className (resolve x use) ((Demand.inScope x use).errors scope) := by
  unfold resolve
  refine (reports_lookup x).next fun v => .errorUnless (fun h => ?_) fun h => ?_
  · rintro g ⟨rfl, hg⟩
    obtain ⟨v, hv⟩ := Option.isSome_iff_exists.mp ((hscope x hx).mpr h)
    rw [hv]
    exact ⟨v, g, rfl, hg⟩
  · rintro g ⟨rfl, -⟩
    rw [Option.not_isSome_iff_eq_none.mp (mt (hscope x hx).mp h)]
    exact ⟨g, rfl⟩

theorem reports_pushVariable (v : Variable) : ReportsIn table className (pushVariable v) [] :=
  reports_emit _

/-- The receiver of a call need not be a variable. -/
theorem reports_receiver (hscope : HasScope table scope) {object : Option Ident}
    (hobject : ∀ x ∈ object, x.Spelled) (name : Ident) :
    Reports (Knows table className) (receiver object name) []
      fun r g => r.2 = receiverCount scope object ∧ Knows table className g := by
  unfold receiver
  cases object with
  | none =>
    exact (reports_emit _).next fun _ => (reports_qualified name).next fun _ =>
      .pure fun g hg => ⟨rfl, hg⟩
  | some x =>
    have hx := hscope x (hobject x rfl)
    refine (reports_lookup x).next fun v => ?_
    rintro g ⟨rfl, hg⟩
    unfold receiverCount
    cases hv : table.lookup x.name with
    | none =>
      have hnot : x.name ∉ scope := mt hx.mpr (by rw [hv]; exact Bool.false_ne_true)
      exact ⟨_, g, rfl, (if_neg hnot).symm, hg⟩
    | some v =>
      have hmem : x.name ∈ scope := hx.mp (by rw [hv]; rfl)
      exact (reports_pushVariable v).next (fun _ => .pure fun _ hg => ⟨(if_pos hmem).symm, hg⟩) g hg

/-! ### Short sequences -/

theorem reports_appendUnits (units : List Word) :
    ReportsIn table className (appendUnits units) [] := by
  induction units with
  | nil => exact .pure fun _ hg => hg
  | cons unit rest ih => exact (reports_emit _).next fun _ => (reports_emit _).next fun _ => ih

theorem reports_literal (value : Literal) :
    ReportsIn table className (literal value) (unmet scope value.demands) := by
  cases value with
  | int | false | null | this => exact reports_emit _
  | true => exact (reports_emit _).next fun _ => reports_emit _
  | string contents span =>
    rw [Literal.demands, unmet_singleton]
    exact (reports_counted _ _ _).last fun _ => (reports_emit _).next fun _ =>
      (reports_emit _).next fun _ =>
      reports_appendUnits _

end

end Generation

open Generation

/-! ### Bodies -/

section
variable {table : SymbolTable} {className : String} {scope : List String}

mutual

theorem Term.reports_generate (hscope : HasScope table scope) : ∀ t : Term, t.Spelled →
    ReportsIn table className t.generate (unmet scope (t.demands scope))
  | .literal value, _ => by
    rw [Term.generate, Term.demands]
    exact reports_literal value
  | .var x, h => by
    rw [Term.Spelled] at h
    rw [Term.generate, Term.demands, unmet_singleton]
    exact (reports_resolve hscope h _).last reports_pushVariable
  | .element array subscript, h => by
    rw [Term.Spelled] at h
    rw [Term.generate, Term.demands, unmet_cons]
    exact (reports_resolve hscope h.1 _).bind fun v => (reports_pushVariable v).next fun _ =>
      (subscript.reports_generate hscope h.2).last fun _ => (reports_emit _).next fun _ =>
      (reports_emit _).next fun _ => reports_emit _
  | .call call, h => by
    rw [Term.Spelled] at h
    rw [Term.generate, Term.demands]
    exact call.reports_generate hscope h
  | .paren inner, h => by
    rw [Term.Spelled] at h
    rw [Term.generate, Term.demands]
    exact inner.reports_generate hscope h
  | .unary op operand, h => by
    rw [Term.Spelled] at h
    rw [Term.generate, Term.demands]
    exact (operand.reports_generate hscope h).last fun _ => reports_emit _

theorem Expr.reports_generate (hscope : HasScope table scope) : ∀ e : Expr, e.Spelled →
    ReportsIn table className e.generate (unmet scope (e.demands scope))
  | .mk head tail, h => by
    rw [Expr.Spelled] at h
    rw [Expr.generate, Expr.demands, unmet_append]
    exact (head.reports_generate hscope h.1).bind fun _ => reports_generateOperands hscope tail h.2

theorem reports_generateOperands (hscope : HasScope table scope) :
    ∀ operands : List Operand, OperandsSpelled operands →
    ReportsIn table className (generateOperands operands)
      (unmet scope (demandsOfOperands scope operands))
  | [], _ => by
    rw [generateOperands, demandsOfOperands]
    exact .pure fun _ hg => hg
  | .mk op term :: rest, h => by
    rw [OperandsSpelled] at h
    rw [generateOperands, demandsOfOperands, unmet_append]
    exact (term.reports_generate hscope h.1).bind fun _ => (reports_emit _).next fun _ =>
      reports_generateOperands hscope rest h.2

theorem Call.reports_generate (hscope : HasScope table scope) : ∀ call : Call, call.Spelled →
    ReportsIn table className call.generate (unmet scope (call.demands scope))
  | .mk object name paren args, h => by
    rw [Call.Spelled] at h
    rw [Call.generate, Call.demands, unmet_append, unmet_singleton]
    refine (reports_receiver hscope h.1 name).next fun r => ?_
    rintro g ⟨hpushed, hg⟩
    rw [← hpushed]
    exact ((reports_generateArgs hscope args h.2.2).bind fun _ =>
      (reports_counted _ _ _).last fun _ =>
      reports_emit _) g hg

theorem reports_generateArgs (hscope : HasScope table scope) :
    ∀ args : List Expr, ArgsSpelled args →
    ReportsIn table className (generateArgs args) (unmet scope (demandsOfArgs scope args))
  | [], _ => by
    rw [generateArgs, demandsOfArgs]
    exact .pure fun _ hg => hg
  | arg :: rest, h => by
    rw [ArgsSpelled] at h
    rw [generateArgs, demandsOfArgs, unmet_append]
    exact (arg.reports_generate hscope h.1).bind fun _ => reports_generateArgs hscope rest h.2

end

mutual

theorem Statement.reports_generate (hscope : HasScope table scope) : ∀ s : Statement, s.Spelled →
    ReportsIn table className s.generate (unmet scope (s.demands scope))
  | .assign x value, h => by
    rw [Statement.Spelled] at h
    rw [Statement.generate, Statement.demands, unmet_cons]
    exact (reports_resolve hscope h.1 _).bind fun _ =>
      (value.reports_generate hscope h.2).last fun _ => reports_emit _
  | .assignElement array subscript value, h => by
    rw [Statement.Spelled] at h
    rw [Statement.generate, Statement.demands, unmet_cons, unmet_append]
    exact (reports_resolve hscope h.1 _).bind fun v => (reports_pushVariable v).next fun _ =>
      (subscript.reports_generate hscope h.2.1).bind fun _ => (reports_emit _).next fun _ =>
      (value.reports_generate hscope h.2.2).last fun _ => (reports_emit _).next fun _ =>
        (reports_emit _).next fun _ =>
      (reports_emit _).next fun _ => reports_emit _
  | .ifThen condition body, h => by
    rw [Statement.Spelled] at h
    rw [Statement.generate, Statement.demands, unmet_append]
    exact reports_freshLabel.next fun _ => (condition.reports_generate hscope h.1).bind fun _ =>
      (reports_emit _).next fun _ => (reports_emit _).next fun _ =>
      (reports_generateStatements hscope body h.2).last fun _ => reports_emit _
  | .ifElse condition body alternative, h => by
    rw [Statement.Spelled] at h
    rw [Statement.generate, Statement.demands, unmet_append, unmet_append, List.append_assoc]
    exact reports_freshLabel.next fun _ => (condition.reports_generate hscope h.1).bind fun _ =>
      (reports_emit _).next fun _ => (reports_emit _).next fun _ =>
      (reports_generateStatements hscope body h.2.1).bind fun _ => (reports_emit _).next fun _ =>
      (reports_emit _).next fun _ => (reports_generateStatements hscope alternative h.2.2).last
        fun _ => reports_emit _
  | .while condition body, h => by
    rw [Statement.Spelled] at h
    rw [Statement.generate, Statement.demands, unmet_append]
    exact reports_freshLabel.next fun _ => (reports_emit _).next fun _ =>
      (condition.reports_generate hscope h.1).bind fun _ => (reports_emit _).next fun _ =>
      (reports_emit _).next fun _ => (reports_generateStatements hscope body h.2).last fun _ =>
      (reports_emit _).next fun _ => reports_emit _
  | .do call, h => by
    rw [Statement.Spelled] at h
    rw [Statement.generate, Statement.demands]
    exact (call.reports_generate hscope h).last fun _ => reports_emit _
  | .return (some value), h => by
    rw [Statement.Spelled] at h
    rw [Statement.generate, Statement.demands]
    exact (value.reports_generate hscope h).last fun _ => reports_emit _
  | .return none, _ => by
    rw [Statement.generate, Statement.demands]
    exact (reports_emit _).next fun _ => reports_emit _

theorem reports_generateStatements (hscope : HasScope table scope) :
    ∀ body : List Statement, AllSpelled body →
    ReportsIn table className (generateStatements body) (unmet scope (demandsOf scope body))
  | [], _ => by
    rw [generateStatements, demandsOf]
    exact .pure fun _ hg => hg
  | s :: rest, h => by
    rw [AllSpelled] at h
    rw [generateStatements, demandsOf, unmet_append]
    exact (s.reports_generate hscope h.1).bind fun _ => reports_generateStatements hscope rest h.2

end

end

/-! ### Declarations -/

namespace Generation

/-- Defines variables in order. -/
def defineEach : List (Declaration × Span) → Generation Unit
  | [] => pure ()
  | (d, span) :: rest => do
    define d.name d.type d.kind span
    defineEach rest

theorem defineEach_append (xs ys : List (Declaration × Span)) :
    defineEach (xs ++ ys) = defineEach xs >>= fun _ => defineEach ys := by
  induction xs with
  | nil => rw [List.nil_append, defineEach, pure_bind]
  | cons d xs ih => rw [List.cons_append, defineEach, defineEach, ih, bind_assoc]

theorem defineAll_eq (type : String) (kind : VarKind) (names : List Ident) :
    defineAll type kind names = defineEach (names.map fun x => (⟨x.name, type, kind⟩, x.span)) := by
  induction names with
  | nil => rfl
  | cons x names ih => rw [defineAll, List.map_cons, defineEach, ih]

theorem defineParameters_eq (parameters : List Parameter) : defineParameters parameters =
    defineEach (parameters.map fun p => (⟨p.name.name, p.type.name, .argument⟩, p.name.span)) := by
  induction parameters with
  | nil => rfl
  | cons p parameters ih => rw [defineParameters, List.map_cons, defineEach, ih]

theorem defineLocals_eq (locals : List VarDec) : defineLocals locals =
    defineEach (locals.flatMap fun d => d.names.map fun x => (⟨x.name, d.type.name, .local⟩,
      x.span)) := by
  induction locals with
  | nil => rfl
  | cons d locals ih => rw [defineLocals, List.flatMap_cons, defineEach_append, defineAll_eq, ih]

theorem defineClassVars_eq (classVars : List ClassVarDec) : defineClassVars classVars =
    defineEach (classVars.flatMap fun d =>
      d.names.map fun x => (⟨x.name, d.type.name, classVarKind d.kind⟩, x.span)) := by
  induction classVars with
  | nil => rfl
  | cons d classVars ih =>
    rw [defineClassVars, List.flatMap_cons, defineEach_append, defineAll_eq, ih]

/-- Both scopes have been given some definitions, newest first; the name of the class is given, and
the sink takes everything. -/
structure Given (className : String) (records : Bool → List Declaration) (g : Generator) :
    Prop where
  room : g.sink.room = none
  scopes : ∀ ofClass, Records (g.symbols.scope ofClass) (records ofClass)
  className : g.className = className

section
variable {className : String} {records : Bool → List Declaration}

/-- What leaves the symbols as they are leaves what has been defined. -/
theorem Reports.of_knows {p : Generation Unit} {errors : List CompileError}
    (h : ∀ table : SymbolTable, (∀ ofClass, Records (table.scope ofClass) (records ofClass)) →
      ReportsIn table className p errors) :
    Reports (Given className records) p errors fun _ => Given className records := by
  intro g hg
  refine (h g.symbols hg.scopes).mono (fun _ => id) (fun _ g' hg' => ?_) g ⟨hg.room, rfl,
    hg.className⟩
  exact ⟨hg'.room, hg'.symbols ▸ hg.scopes, hg'.className⟩

/-- A definition succeeds if the symbols answer it with a variable. -/
theorem define_eq (name type : String) (kind : VarKind) (span : Span) (g : Generator) :
    define name type kind span g =
      let g' := { g with symbols := (g.symbols.define name type kind).2 }
      match (g.symbols.define name type kind).1 with
      | some _ => .ok () g'
      | none => .error (.tooMany .variablesOfKind span) g' := by
  obtain ⟨sink, symbols, className, labels⟩ := g
  simp only [define]
  cases symbols.define name type kind with
  | mk answer symbols' => cases answer <;> rfl

theorem reports_define (d : Declaration) (span : Span) :
    Reports (Given className records) (define d.name d.type d.kind span)
      (errorUnless (countOfKind d.kind (records d.kind.ofClass) < Word.maxNat)
        (.tooMany .variablesOfKind span))
      fun _ =>
        Given className (Function.update records d.kind.ofClass (d :: records d.kind.ofClass)) := by
  -- The scope that the kind belongs to accepts the definition if the count of the kind is below the
  -- limit.
  have hnone {g : Generator} (hg : Given className records g) :
      (g.symbols.define d.name d.type d.kind).1 = none ↔
      Word.maxNat ≤ countOfKind d.kind (records d.kind.ofClass) := by
    rw [SymbolTable.define_fst, Scope.define_eq_none_iff, (hg.scopes _).count]
  refine .errorUnless (fun hroom => ?_) fun hfull => ?_
  · intro g hg
    obtain ⟨v, hv⟩ := Option.ne_none_iff_exists'.mp (mt (hnone hg).mp (Nat.not_le.mpr hroom))
    refine ⟨(), { g with symbols := (g.symbols.define d.name d.type d.kind).2 }, by
      simp only [define_eq, hv], hg.room,
      fun ofClass => ?_, hg.className⟩
    show Records ((g.symbols.define d.name d.type d.kind).2.scope ofClass) _
    rw [SymbolTable.scope_define]
    by_cases hkind : d.kind.ofClass = ofClass
    · subst hkind
      rw [if_pos rfl, Function.update_self]
      refine (hg.scopes _).define ?_
      rw [← SymbolTable.define_fst]
      exact Option.isSome_iff_exists.mpr ⟨v, hv⟩
    · rw [if_neg hkind, Function.update_of_ne (Ne.symm hkind)]
      exact hg.scopes ofClass
  · intro g hg
    have hrefused := (hnone hg).mpr (Nat.not_lt.mp hfull)
    exact ⟨{ g with symbols := (g.symbols.define d.name d.type d.kind).2 }, by
      simp only [define_eq, hrefused]⟩

/-- **Declarations of one scope** are reported in excess from the first one on that has no index. -/
theorem reports_defineEach (className : String) (records : Bool → List Declaration) {ofClass : Bool}
    {ds : List (Declaration × Span)} (hds : ∀ d ∈ ds, d.1.kind.ofClass = ofClass) :
    Reports (Given className records) (defineEach ds) (excessErrors (records ofClass) ds)
      fun _ =>
        Given className
          (Function.update records ofClass ((ds.map Prod.fst).reverse ++ records ofClass)) := by
  induction ds generalizing records with
  | nil =>
    rw [List.map_nil, List.reverse_nil, List.nil_append, Function.update_eq_self]
    exact .pure fun _ hg => hg
  | cons d rest ih =>
    obtain ⟨d, span⟩ := d
    obtain ⟨rfl, hrest⟩ := List.forall_mem_cons.mp hds
    have hnext := ih (Function.update records d.kind.ofClass (d :: records d.kind.ofClass)) hrest
    rw [Function.update_self, Function.update_idem] at hnext
    rw [defineEach, excessErrors, List.map_cons, List.reverse_cons, List.append_assoc,
      List.singleton_append]
    exact (reports_define d span).bind fun _ => hnext

theorem reports_get : Reports (Given className records) get []
    fun current g => current.className = className ∧ Given className records g :=
  fun g hg => ⟨g, g, rfl, hg.className, hg⟩

/-- A new subroutine has no variables. -/
theorem reports_resetSymbols : Reports (Given className records) resetSymbols []
    fun _ => Given className (Function.update records false []) := by
  intro g hg
  refine ⟨(), _, rfl, hg.room, fun ofClass => ?_, hg.className⟩
  show Records (g.symbols.reset.scope ofClass) _
  rw [SymbolTable.scope_reset]
  cases ofClass with
  | false => exact .empty
  | true => exact hg.scopes true

theorem reports_objectSetup {table : SymbolTable} (kind : SubroutineKind) :
    ReportsIn table className (objectSetup kind) [] := by
  cases kind with
  | function => exact .pure fun _ hg => hg
  | constructor =>
    exact (reports_countOf _).next fun _ => (reports_emit _).next fun _ =>
      (reports_emit _).next fun _ => reports_emit _
  | method => exact (reports_emit _).next fun _ => reports_emit _

end

end Generation

/-! ### Scopes -/

theorem isSome_declared_iff {base : VarKind → Nat} {x : String} {ds : List Declaration} :
    (declared base x ds).isSome = true ↔ x ∈ ds.map (·.name) := by
  induction ds with
  | nil => simp [declared]
  | cons d older ih =>
    rw [declared]
    split
    · next hname => simp [hname]
    · next hname => simp [Ne.symm hname, ih]

section
variable {c : Class} {s : Subroutine}

/-- A name that can be written is in scope if it is declared. -/
theorem Subroutine.mem_scope_iff {x : String} (hx : x ≠ "this") : x ∈ s.scope c ↔
    x ∈ (s.declarations c.name.name).map (·.name) ∨ x ∈ c.declarations.map (·.name) := by
  have hclass : c.declarations.map (·.name) = c.classVars.flatMap (·.names.map (·.name)) := by
    simp [Class.declarations, List.map_flatMap, Function.comp_def]
  have hsubroutine : (s.declarations c.name.name).map (·.name) =
      (if s.kind = .method then ["this"] else []) ++
      (s.parameters.map (·.name.name) ++ s.locals.flatMap (·.names.map (·.name))) := by
    simp only [declarations, List.map_append, List.map_flatMap, List.map_map, List.append_assoc]
    congr 1
    split <;> rfl
  have hthis : x ∉ (if s.kind = .method then ["this"] else []) := by
    split
    · exact fun h => hx (List.mem_singleton.mp h)
    · exact List.not_mem_nil
  rw [hclass, hsubroutine, List.mem_append, or_iff_right hthis, scope, List.mem_append]

theorem Subroutine.hasScope {table : SymbolTable} {records : Bool → List Declaration}
    (h : ∀ ofClass, Records (table.scope ofClass) (records ofClass))
    (hclass : records true = c.declarations.reverse)
    (hsubroutine : records false = (s.declarations c.name.name).reverse) :
    HasScope table (s.scope c) := by
  intro x hx
  rw [s.mem_scope_iff hx.ne_this, SymbolTable.lookup_eq, Option.isSome_or, Bool.or_eq_true,
    (h false).lookup, (h true).lookup, isSome_declared_iff, isSome_declared_iff, hclass,
    hsubroutine, List.map_reverse, List.map_reverse, List.mem_reverse, List.mem_reverse]

/-! ### Subroutines and classes -/

/-- The declarations of a class are there, and nothing is known of the subroutine. -/
def InClass (c : Class) (g : Generator) : Prop :=
  ∃ records : Bool → List Declaration, records true = c.declarations.reverse ∧
    Given c.name.name records g

theorem Subroutine.defineEach_placedDeclarations (className : String) :
    defineEach (s.placedDeclarations className) =
    (if s.kind = .method then define "this" className .argument s.name.span
      else pure ()) >>= fun _ =>
      defineParameters s.parameters >>= fun _ => defineLocals s.locals := by
  unfold placedDeclarations
  rw [defineEach_append, defineEach_append, ← defineParameters_eq, ← defineLocals_eq, bind_assoc]
  congr 1
  split
  · rw [defineEach, defineEach]
    exact bind_pure _
  · rw [defineEach]

theorem Subroutine.reports_declare {records : Bool → List Declaration} :
    Reports (Given c.name.name records) s.declare
      (excessErrors [] (s.placedDeclarations c.name.name))
      fun _ =>
        Given c.name.name (Function.update records false (s.declarations c.name.name).reverse) := by
  have hkinds : ∀ d ∈ s.placedDeclarations c.name.name, d.1.kind.ofClass = false := fun d hd =>
    ofClass_of_mem_declarations (s.map_fst_placedDeclarations c.name.name ▸ List.mem_map_of_mem hd)
  have hdefine := reports_defineEach c.name.name (Function.update records false []) hkinds
  rw [Function.update_self, Function.update_idem, List.append_nil, s.map_fst_placedDeclarations,
    s.defineEach_placedDeclarations] at hdefine
  unfold declare
  refine reports_resetSymbols.next fun _ => ?_
  by_cases hmethod : s.kind = .method
  · simp only [if_pos hmethod] at hdefine ⊢
    refine reports_get.next fun current => ?_
    rintro g ⟨hname, hg⟩
    rw [hname]
    exact hdefine g hg
  · simp only [if_neg hmethod, pure_bind] at hdefine ⊢
    exact hdefine

theorem Subroutine.reports_generate (hs : s.Spelled) :
    Reports (InClass c) s.generate (s.violations c) fun _ => InClass c := by
  rintro g ⟨records, hclass, hg⟩
  unfold generate violations
  refine (s.reports_declare.bind fun _ => .mono (.of_knows fun table htable => ?_) (fun _ => id) ?_)
    g hg
  · have hscope : HasScope table (s.scope c) := s.hasScope htable
      (by rw [Function.update_of_ne (by decide), hclass]) (by rw [Function.update_self])
    exact (reports_qualified _).next fun _ => (reports_countOf _).next fun _ =>
      (reports_emit _).next fun _ =>
      (reports_objectSetup _).next fun _ => reports_generateStatements hscope s.body hs.body
  · exact fun _ g' hg' => ⟨_, by rw [Function.update_of_ne (by decide), hclass], hg'⟩

theorem reports_generateSubroutines {ss : List Subroutine} (hss : ∀ s ∈ ss, s.Spelled) :
    Reports (InClass c) (generateSubroutines ss) (ss.flatMap fun s => s.violations c) fun _ =>
      InClass c := by
  induction ss with
  | nil => exact .pure fun _ hg => hg
  | cons s rest ih =>
    obtain ⟨hs, hrest⟩ := List.forall_mem_cons.mp hss
    rw [generateSubroutines, List.flatMap_cons]
    exact (s.reports_generate hs).bind fun _ => ih hrest

/-- **A fresh generator reports the violations of a class.** -/
theorem Class.reports_generate (hc : c.Spelled) :
    Reports (Given "" fun _ => []) c.generate c.violations fun _ => InClass c := by
  have hkinds : ∀ d ∈ c.placedDeclarations, d.1.kind.ofClass = true := fun d hd =>
    ofClass_of_mem_declarations (c.map_fst_placedDeclarations ▸ List.mem_map_of_mem hd)
  have hdefine := reports_defineEach c.name.name (fun _ => []) hkinds
  have hname : Reports (Given "" fun _ => [])
      (modify fun g => { g with className := c.name.name }) []
      fun _ => Given c.name.name fun _ => [] :=
    fun g hg => ⟨(), _, rfl, hg.room, hg.scopes, rfl⟩
  rw [c.map_fst_placedDeclarations, List.append_nil] at hdefine
  unfold generate violations
  rw [defineClassVars_eq]
  exact hname.next fun _ =>
    (hdefine.mono (fun _ => id) fun _ g hg => ⟨_, Function.update_self .., hg⟩).bind fun _ =>
    reports_generateSubroutines hc.subroutines

end

/-! ### The compiler -/

theorem given_new : Given "" (fun _ => []) (Generator.new .unlimited) where
  room := rfl
  scopes ofClass := by cases ofClass <;> exact .empty
  className := rfl

/-- **Generation reports the first violation.**  In front of a sink that takes everything, a class
that has been parsed is compiled if its variables are declared and nothing is too large, and only
then; and otherwise the error is the first violation, in the order of generation. -/
theorem compile_reports_first {source : String} {c : Class} (h : parseUnit source = .ok c) :
    (((Generator.new .unlimited).compile c).1 = .ok () ↔ c.Compilable) ∧
      ((Generator.new .unlimited).compile c).1 = c.violations.head?.elim (.ok ()) .error := by
  have hreports := Class.reports_generate (spelled_of_parseUnit h) _ given_new
  have hresult : ((Generator.new .unlimited).compile c).1 =
      c.violations.head?.elim (.ok ()) .error := by
    have hrun : c.generate.run (Generator.new .unlimited) = c.generate (Generator.new .unlimited) :=
      rfl
    unfold Generator.compile
    rw [hrun]
    cases hviolations : c.violations with
    | nil =>
      rw [hviolations] at hreports
      obtain ⟨_, g', hok, -⟩ := hreports
      rw [hok]
      rfl
    | cons e rest =>
      rw [hviolations] at hreports
      obtain ⟨g', herror⟩ := hreports
      rw [herror]
      rfl
  refine ⟨?_, hresult⟩
  rw [hresult, ← c.violations_eq_nil_iff]
  cases c.violations <;> simp

/-- A class with a method that uses a variable of another subroutine, and one that is nowhere
declared. -/
def forgottenSource : String :=
  "class Main \x7b function void f() \x7b var int x; return; \x7d method int g(int y) \x7b let x[z] = y; return y; \x7d \x7d"

/-- The array is reported, and not its subscript. -/
theorem compile_reports_first_forgotten : ∃ c, parseUnit forgottenSource = .ok c ∧ ¬c.Compilable ∧
    ((Generator.new .unlimited).compile c).1 =
      .error (.undefined "x" ⟨80, 81, 1, 81⟩ .inAssignment) := by
  have hfirst : (parseUnit forgottenSource).toOption.bind (·.violations.head?) =
      some (.undefined "x" ⟨80, 81, 1, 81⟩ .inAssignment) := by decide +kernel
  cases hparse : parseUnit forgottenSource with
  | error e =>
    rw [hparse] at hfirst
    cases hfirst
  | ok c =>
    obtain ⟨hcompiles, hresult⟩ := compile_reports_first hparse
    rw [hparse] at hfirst
    replace hfirst : c.violations.head? = some (.undefined "x" ⟨80, 81, 1, 81⟩ .inAssignment) :=
      hfirst
    rw [hfirst] at hresult
    refine ⟨c, rfl, fun h => ?_, hresult⟩
    rw [hcompiles.mpr h] at hresult
    cases hresult

end JackToolchain.Jack
