import JackToolchain.Proofs.Jack.VariableBounds

/-!
# What a class demands

A class that has been parsed may still have no code: it may use a name that no variable has, and it
may have more of something than a command can say.  What is asked of a class is listed here along
its tree, in the order in which its parts are treated: declarations before bodies, an array before
its subscript, the target of an assignment before the value, and the number of arguments of a call
behind the arguments themselves.  The names of subroutines and the receivers of calls are not asked
for.

The demands that are not met are the violations of the class (`Class.violations`).  There is none if
and only if the variables in its bodies are declared and nothing is too large
(`Class.violations_eq_nil_iff`).
-/

namespace JackToolchain.Jack

/-! ### Demands of bodies -/

/-- What a part of a body needs in order to have code. -/
inductive Demand where
  /-- A name is that of a variable in scope. -/
  | inScope (name : Ident) (use : Use)
  /-- A string constant is not too long. -/
  | string (contents : String) (span : Span)
  /-- A call does not have too many arguments, the object that it is directed to included. -/
  | arguments (count : Nat) (paren : Span)

/-- The error that there is unless a condition holds. -/
def errorUnless (p : Prop) [Decidable p] (e : CompileError) : List CompileError :=
  if p then [] else [e]

theorem errorUnless_eq_nil_iff {p : Prop} [Decidable p] {e : CompileError} :
    errorUnless p e = [] ↔ p := by
  unfold errorUnless
  split <;> simp [*]

/-- The error of a demand that is not met, where the variables in scope have the given names. -/
def Demand.errors (scope : List String) : Demand → List CompileError
  | .inScope x use => errorUnless (x.name ∈ scope) (.undefined x.name x.span use)
  | .string contents span =>
    errorUnless ((Text.units contents).length ≤ Word.maxNat) (.tooMany .stringUnits span)
  | .arguments count paren => errorUnless (count ≤ Word.maxNat) (.tooMany .arguments paren)

/-- The errors of the demands that are not met, in order. -/
def unmet (scope : List String) (demands : List Demand) : List CompileError :=
  demands.flatMap (Demand.errors scope)

/-- What a literal demands. -/
def Literal.demands : Literal → List Demand
  | .string contents span => [.string contents span]
  | .int .. | .true | .false | .null | .this => []

/-- How many objects a call is directed to, one or none, where the variables in scope have the given
names. -/
def receiverCount (scope : List String) : Option Ident → Nat
  | none => 1
  | some x => if x.name ∈ scope then 1 else 0

section
variable (scope : List String)

mutual

/-- What a term demands. -/
def Term.demands : Term → List Demand
  | .literal value => value.demands
  | .var x => [.inScope x .inExpression]
  | .element array subscript => .inScope array .inElement :: subscript.demands
  | .call call => call.demands
  | .paren inner => inner.demands
  | .unary _ operand => operand.demands

/-- What an expression demands. -/
def Expr.demands : Expr → List Demand
  | .mk head tail => head.demands ++ demandsOfOperands tail

/-- What operands demand. -/
def demandsOfOperands : List Operand → List Demand
  | [] => []
  | .mk _ term :: rest => term.demands ++ demandsOfOperands rest

/-- What a call demands. -/
def Call.demands : Call → List Demand
  | .mk receiver _ paren args =>
    demandsOfArgs args ++ [.arguments (receiverCount scope receiver + args.length) paren]

/-- What arguments demand. -/
def demandsOfArgs : List Expr → List Demand
  | [] => []
  | arg :: rest => arg.demands ++ demandsOfArgs rest

end

mutual

/-- What a statement demands. -/
def Statement.demands : Statement → List Demand
  | .assign x value => .inScope x .inAssignment :: value.demands scope
  | .assignElement array subscript value =>
    .inScope array .inAssignment :: (subscript.demands scope ++ value.demands scope)
  | .ifThen condition body | .while condition body => condition.demands scope ++ demandsOf body
  | .ifElse condition body alternative =>
    condition.demands scope ++ demandsOf body ++ demandsOf alternative
  | .do call => call.demands scope
  | .return (some value) => value.demands scope
  | .return none => []

/-- What statements demand. -/
def demandsOf : List Statement → List Demand
  | [] => []
  | s :: rest => s.demands ++ demandsOf rest

end

end

theorem unmet_append (scope : List String) (xs ys : List Demand) :
    unmet scope (xs ++ ys) = unmet scope xs ++ unmet scope ys := List.flatMap_append

theorem unmet_cons (scope : List String) (d : Demand) (ds : List Demand) :
    unmet scope (d :: ds) = d.errors scope ++ unmet scope ds := List.flatMap_cons

theorem unmet_singleton (scope : List String) (d : Demand) : unmet scope [d] = d.errors scope :=
  List.flatMap_singleton (Demand.errors scope) d

theorem unmet_eq_nil_iff {scope : List String} {ds : List Demand} :
    unmet scope ds = [] ↔ ∀ d ∈ ds, d.errors scope = [] := List.flatMap_eq_nil_iff

/-! ### Declarations -/

/-- The variables that a class declares, in order, with their places. -/
def Class.placedDeclarations (c : Class) : List (Declaration × Span) :=
  c.classVars.flatMap fun d => d.names.map fun x =>
    (⟨x.name, d.type.name, Generation.classVarKind d.kind⟩, x.span)

/-- The variables that a subroutine of the named class declares, in order, with their places.  The
hidden argument of a method has that of the method. -/
def Subroutine.placedDeclarations (className : String) (s : Subroutine) :
    List (Declaration × Span) :=
  (if s.kind = .method then [(⟨"this", className, .argument⟩, s.name.span)] else [])
    ++ s.parameters.map (fun p => (⟨p.name.name, p.type.name, .argument⟩, p.name.span))
    ++ s.locals.flatMap fun d => d.names.map fun x => (⟨x.name, d.type.name, .local⟩, x.span)

theorem Class.map_fst_placedDeclarations (c : Class) :
    c.placedDeclarations.map Prod.fst = c.declarations := by
  unfold placedDeclarations declarations
  simp only [List.map_flatMap, List.map_map]
  rfl

theorem Subroutine.map_fst_placedDeclarations (className : String) (s : Subroutine) :
    (s.placedDeclarations className).map Prod.fst = s.declarations className := by
  unfold placedDeclarations declarations
  simp only [List.map_append, List.map_flatMap, List.map_map]
  congr 2
  split <;> rfl

/-- The errors of declarations for which their kind has no index left, behind earlier ones in the
same scope. -/
def excessErrors (earlier : List Declaration) : List (Declaration × Span) → List CompileError
  | [] => []
  | (d, span) :: rest =>
    errorUnless (countOfKind d.kind earlier < Word.maxNat) (.tooMany .variablesOfKind span)
      ++ excessErrors (d :: earlier) rest

/-- No declaration is in excess if there is room for all of them together. -/
theorem excessErrors_eq_nil_iff {earlier : List Declaration} {ds : List (Declaration × Span)}
    (hearlier : ∀ kind, countOfKind kind earlier ≤ Word.maxNat) :
    excessErrors earlier ds = [] ↔
      ∀ kind, countOfKind kind earlier + countOfKind kind (ds.map Prod.fst) ≤ Word.maxNat := by
  induction ds generalizing earlier with
  | nil => simpa [excessErrors, countOfKind] using hearlier
  | cons d rest ih =>
    obtain ⟨d, span⟩ := d
    have hcons (kind : VarKind) (ds : List Declaration) :
        countOfKind kind (d :: ds) = countOfKind kind ds + if d.kind = kind then 1 else 0 := by
      simp [countOfKind, List.countP_cons]
    rw [excessErrors, List.append_eq_nil_iff, errorUnless_eq_nil_iff]
    constructor
    · rintro ⟨hroom, hrest⟩ kind
      have hnext : ∀ kind, countOfKind kind (d :: earlier) ≤ Word.maxNat := by
        intro kind
        rw [hcons]
        have := hearlier kind
        split
        · next hkind =>
          subst hkind
          omega
        · omega
      have hall := (ih hnext).mp hrest kind
      rw [List.map_cons, hcons]
      rw [hcons] at hall
      omega
    · intro hall
      have hkind := hall d.kind
      rw [List.map_cons, hcons, if_pos rfl] at hkind
      refine ⟨by omega, (ih fun kind => ?_).mpr fun kind => ?_⟩
      · have hk := hall kind
        rw [List.map_cons, hcons] at hk
        rw [hcons]
        omega
      · have hk := hall kind
        rw [List.map_cons, hcons] at hk
        rw [hcons]
        omega

/-! ### Classes -/

/-- The names of the variables that a subroutine of a class can use. -/
def Subroutine.scope (s : Subroutine) (c : Class) : List String :=
  s.parameters.map (·.name.name) ++ s.locals.flatMap (·.names.map (·.name)) ++
    c.classVars.flatMap (·.names.map (·.name))

/-- What the body of a subroutine of a class demands. -/
def Subroutine.demands (s : Subroutine) (c : Class) : List Demand := demandsOf (s.scope c) s.body

/-- The errors in a subroutine of a class, in order. -/
def Subroutine.violations (s : Subroutine) (c : Class) : List CompileError :=
  excessErrors [] (s.placedDeclarations c.name.name) ++ unmet (s.scope c) (s.demands c)

/-- The errors in a class, in order. -/
def Class.violations (c : Class) : List CompileError :=
  excessErrors [] c.placedDeclarations ++ c.subroutines.flatMap fun s => s.violations c

/-- **Classes that have code.**  All variables are declared, and nothing is too large. -/
structure Class.Compilable (c : Class) : Prop where
  inScope : ∀ s ∈ c.subroutines, ∀ x use, .inScope x use ∈ s.demands c → x.name ∈ s.scope c
  statics : countOfKind .static c.declarations ≤ Word.maxNat
  fields : countOfKind .field c.declarations ≤ Word.maxNat
  arguments : ∀ s ∈ c.subroutines,
    s.parameters.length + (if s.kind = .method then 1 else 0) ≤ Word.maxNat
  locals : ∀ s ∈ c.subroutines, s.localCount ≤ Word.maxNat
  strings : ∀ s ∈ c.subroutines, ∀ contents span, .string contents span ∈ s.demands c →
    (Text.units contents).length ≤ Word.maxNat
  calls : ∀ s ∈ c.subroutines, ∀ count paren, .arguments count paren ∈ s.demands c →
    count ≤ Word.maxNat

theorem Class.excessErrors_eq_nil_iff (c : Class) : excessErrors [] c.placedDeclarations = [] ↔
    countOfKind .static c.declarations ≤ Word.maxNat ∧
      countOfKind .field c.declarations ≤ Word.maxNat := by
  rw [Jack.excessErrors_eq_nil_iff fun _ => Nat.zero_le _, c.map_fst_placedDeclarations]
  have hother {kind : VarKind} (h : kind.ofClass = false) : countOfKind kind c.declarations = 0 :=
    countOfKind_eq_zero fun d hd heq => by
      rw [← heq, Class.ofClass_of_mem_declarations hd] at h
      cases h
  constructor
  · intro h
    exact ⟨by simpa [countOfKind] using h .static, by simpa [countOfKind] using h .field⟩
  · rintro ⟨hstatics, hfields⟩ kind
    show 0 + countOfKind kind c.declarations ≤ _
    cases kind with
    | static => omega
    | field => omega
    | argument => rw [hother rfl]; exact Nat.zero_le _
    | «local» => rw [hother rfl]; exact Nat.zero_le _

theorem Subroutine.excessErrors_eq_nil_iff (className : String) (s : Subroutine) :
    excessErrors [] (s.placedDeclarations className) = [] ↔
      s.parameters.length + (if s.kind = .method then 1 else 0) ≤ Word.maxNat ∧
      s.localCount ≤ Word.maxNat := by
  rw [Jack.excessErrors_eq_nil_iff fun _ => Nat.zero_le _, s.map_fst_placedDeclarations,
    ← s.countOfKind_argument className, ← s.countOfKind_local className]
  have hother {kind : VarKind} (h : kind.ofClass = true) : countOfKind kind
      (s.declarations className) = 0 :=
    countOfKind_eq_zero fun d hd heq => by
      rw [← heq, Subroutine.ofClass_of_mem_declarations hd] at h
      cases h
  constructor
  · intro h
    exact ⟨by simpa [countOfKind] using h .argument, by simpa [countOfKind] using h .local⟩
  · rintro ⟨harguments, hlocals⟩ kind
    show 0 + countOfKind kind (s.declarations className) ≤ _
    cases kind with
    | static => rw [hother rfl]; exact Nat.zero_le _
    | field => rw [hother rfl]; exact Nat.zero_le _
    | argument => omega
    | «local» => omega

theorem unmet_eq_nil_iff_forall {scope : List String} {ds : List Demand} :
    unmet scope ds = [] ↔ (∀ x use, .inScope x use ∈ ds → x.name ∈ scope) ∧
      (∀ contents span, .string contents span ∈ ds → (Text.units contents).length ≤ Word.maxNat) ∧
      ∀ count paren, .arguments count paren ∈ ds → count ≤ Word.maxNat := by
  rw [unmet_eq_nil_iff]
  constructor
  · intro h
    exact ⟨fun x use hd => errorUnless_eq_nil_iff.mp (h _ hd),
      fun contents span hd => errorUnless_eq_nil_iff.mp (h _ hd),
      fun count paren hd => errorUnless_eq_nil_iff.mp (h _ hd)⟩
  · rintro ⟨hscope, hstrings, hcalls⟩ d hd
    cases d with
    | inScope x use => exact errorUnless_eq_nil_iff.mpr (hscope x use hd)
    | string contents span => exact errorUnless_eq_nil_iff.mpr (hstrings contents span hd)
    | arguments count paren => exact errorUnless_eq_nil_iff.mpr (hcalls count paren hd)

/-- **A class has no violations** if and only if its variables are declared and nothing is too
large. -/
theorem Class.violations_eq_nil_iff (c : Class) : c.violations = [] ↔ c.Compilable := by
  unfold violations Subroutine.violations
  rw [List.append_eq_nil_iff, c.excessErrors_eq_nil_iff, List.flatMap_eq_nil_iff]
  simp only [List.append_eq_nil_iff, Subroutine.excessErrors_eq_nil_iff, unmet_eq_nil_iff_forall]
  constructor
  · rintro ⟨⟨hstatics, hfields⟩, h⟩
    exact
      { inScope := fun s hs => (h s hs).2.1
        statics := hstatics
        fields := hfields
        arguments := fun s hs => (h s hs).1.1
        locals := fun s hs => (h s hs).1.2
        strings := fun s hs => (h s hs).2.2.1
        calls := fun s hs => (h s hs).2.2.2 }
  · intro h
    exact ⟨⟨h.statics, h.fields⟩,
      fun s hs => ⟨⟨h.arguments s hs, h.locals s hs⟩, h.inScope s hs, h.strings s hs, h.calls s hs⟩⟩

end JackToolchain.Jack
