import Mathlib.Algebra.GroupWithZero.Nat
import Mathlib.Data.List.Basic
import JackToolchain.Jack.Generator

/-!
# What names stand for

A symbol table is filled step by step.  What it answers can be said without the steps: a name stands
for its newest declaration, and a variable's index is the number of older declarations of its kind
in the same scope (`declared`).  The main facts say that the table agrees, for one scope
(`Scope.lookup_of_defineEach`) and for a subroutine in front of its class
(`SymbolTable.lookup_of_declared`).
-/

namespace JackToolchain.Jack

/-! ### Declarations -/

/-- A variable as its declaration introduces it. -/
structure Declaration where
  name : String
  type : String
  kind : VarKind
deriving Repr, DecidableEq

/-- How many of the declarations are of a kind. -/
def countOfKind (kind : VarKind) (declarations : List Declaration) : Nat :=
  declarations.countP fun d => d.kind == kind

/-- The variable that a name stands for in a scope, whose declarations are given newest first.
There are variables in the scope already, `base kind` of each kind. -/
def declared (base : VarKind → Nat) (name : String) : List Declaration → Option Variable
  | [] => none
  | d :: older =>
    if d.name = name then
      some ⟨d.name, d.type, d.kind, BitVec.ofNat 16 (base d.kind + countOfKind d.kind older)⟩
    else declared base name older

theorem declared_append (base : VarKind → Nat) (name : String) (newer older : List Declaration) :
    declared base name (newer ++ older) =
      (declared (fun k => base k + countOfKind k older) name newer).or
        (declared base name older) := by
  induction newer with
  | nil => rfl
  | cons d newer ih =>
    rw [List.cons_append, declared, declared]
    split
    · simp only [countOfKind, List.countP_append]
      rw [Nat.add_comm (List.countP _ newer), Nat.add_assoc]
      rfl
    · exact ih

/-- The variables that a class declares, in order. -/
def Class.declarations (c : Class) : List Declaration :=
  c.classVars.flatMap fun d => d.names.map fun x =>
    ⟨x.name, d.type.name, Generation.classVarKind d.kind⟩

/-- The variables that a subroutine of the named class declares, in order.  A method has the object
it belongs to as its first argument. -/
def Subroutine.declarations (className : String) (s : Subroutine) : List Declaration :=
  (if s.kind = .method then [⟨"this", className, .argument⟩] else [])
    ++ s.parameters.map (fun p => ⟨p.name.name, p.type.name, .argument⟩)
    ++ s.locals.flatMap fun d => d.names.map fun x => ⟨x.name, d.type.name, .local⟩

theorem Class.ofClass_of_mem_declarations {c : Class} {d : Declaration} (h : d ∈ c.declarations) :
    d.kind.ofClass = true := by
  obtain ⟨v, -, hd⟩ := List.mem_flatMap.mp h
  obtain ⟨x, -, rfl⟩ := List.mem_map.mp hd
  show (Generation.classVarKind v.kind).ofClass = true
  cases v.kind <;> rfl

theorem Subroutine.ofClass_of_mem_declarations {className : String} {s : Subroutine}
    {d : Declaration} (h : d ∈ s.declarations className) : d.kind.ofClass = false := by
  unfold Subroutine.declarations at h
  rw [List.mem_append, List.mem_append] at h
  rcases h with (h | h) | h
  · split at h
    · rw [List.mem_singleton.mp h]
      rfl
    · cases h
  · obtain ⟨p, -, rfl⟩ := List.mem_map.mp h
    rfl
  · obtain ⟨v, -, hd⟩ := List.mem_flatMap.mp h
    obtain ⟨x, -, rfl⟩ := List.mem_map.mp hd
    rfl

/-! ### Scopes -/

namespace Scope

theorem lookup_empty (x : String) : empty.lookup x = none := by
  rw [lookup, empty, Std.HashMap.getElem?_empty]

theorem count_empty (kind : VarKind) : empty.count kind = 0 := by
  cases kind <;> rfl

/-- Defines variables in order, as long as their kinds have indices left. -/
def defineEach (s : Scope) : List Declaration → Option Scope
  | [] => some s
  | d :: rest =>
    match s.define d.name d.type d.kind with
    | (some _, s) => s.defineEach rest
    | (none, _) => none

theorem lookup_of_define {s s' : Scope} {name type : String} {kind : VarKind} {v : Variable}
    (h : s.define name type kind = (some v, s')) (x : String) :
    s'.lookup x = (declared s.count x [⟨name, type, kind⟩]).or (s.lookup x) := by
  obtain ⟨bindings, counts⟩ := s
  simp only [define] at h
  split at h
  · cases h
    simp only [declared, lookup, count, countOfKind, Std.HashMap.getElem?_insert, beq_iff_eq]
    split <;> rfl
  · cases h

theorem count_of_define {s s' : Scope} {name type : String} {kind : VarKind} {v : Variable}
    (h : s.define name type kind = (some v, s')) (k : VarKind) :
    s'.count k = s.count k + countOfKind k [⟨name, type, kind⟩] := by
  obtain ⟨bindings, counts⟩ := s
  simp only [define] at h
  split at h
  · cases h
    simp only [count, countOfKind, Counts.get_increment, List.countP_cons,
      List.countP_nil, beq_iff_eq]
    omega
  · cases h

/-- A kind that has been given an index had one left. -/
theorem count_le_of_define {s s' : Scope} {name type : String} {kind k : VarKind} {v : Variable}
    (h : s.define name type kind = (some v, s')) (hs : s.count k ≤ Word.maxNat) :
    s'.count k ≤ Word.maxNat := by
  obtain ⟨bindings, counts⟩ := s
  simp only [define] at h
  split at h
  · next hindex =>
    cases h
    simp only [count, Counts.get_increment] at hs ⊢
    split
    · next hkind => exact hkind ▸ hindex
    · exact hs
  · cases h

theorem count_of_defineEach {s s' : Scope} {ds : List Declaration} (h : s.defineEach ds = some s')
    (k : VarKind) : s'.count k = s.count k + countOfKind k ds := by
  induction ds generalizing s with
  | nil =>
    cases h
    rfl
  | cons d ds ih =>
    simp only [defineEach] at h
    split at h
    · next v s₁ hd =>
      rw [ih h, count_of_define hd, Nat.add_assoc]
      simp only [countOfKind, List.countP_cons, List.countP_nil]
      omega
    · cases h

/-- The indices of a kind are never used up by more definitions than there are indices. -/
theorem count_le_of_defineEach {s s' : Scope} {ds : List Declaration}
    (h : s.defineEach ds = some s') {k : VarKind} (hs : s.count k ≤ Word.maxNat) :
    s'.count k ≤ Word.maxNat := by
  induction ds generalizing s with
  | nil =>
    cases h
    exact hs
  | cons d ds ih =>
    simp only [defineEach] at h
    split at h
    · next v s₁ hd => exact ih h (count_le_of_define hd hs)
    · cases h

/-- **A scope answers from its declarations.**  Behind a sequence of definitions, a name stands for
its newest declaration, or for what it stood for before. -/
theorem lookup_of_defineEach {s s' : Scope} {ds : List Declaration} (h : s.defineEach ds = some s')
    (x : String) : s'.lookup x = (declared s.count x ds.reverse).or (s.lookup x) := by
  induction ds generalizing s with
  | nil =>
    cases h
    rfl
  | cons d ds ih =>
    simp only [defineEach] at h
    split at h
    · next v s₁ hd =>
      have hcount : s₁.count = fun k => s.count k + countOfKind k [d] := funext (count_of_define hd)
      rw [ih h, lookup_of_define hd, hcount, List.reverse_cons, declared_append, Option.or_assoc]
    · cases h

end Scope

/-! ### Tables -/

namespace SymbolTable

/-- Defines variables in order, as long as their kinds have indices left. -/
def defineEach (t : SymbolTable) : List Declaration → Option SymbolTable
  | [] => some t
  | d :: rest =>
    match t.define d.name d.type d.kind with
    | (some _, t) => t.defineEach rest
    | (none, _) => none

theorem defineEach_append (t : SymbolTable) (xs ys : List Declaration) :
    t.defineEach (xs ++ ys) = (t.defineEach xs).bind fun t => t.defineEach ys := by
  induction xs generalizing t with
  | nil => rfl
  | cons d xs ih =>
    simp only [List.cons_append, defineEach]
    split
    · exact ih _
    · rfl

/-- Variables of a class are defined in the scope of the class. -/
theorem defineEach_of_ofClass {t : SymbolTable} {ds : List Declaration}
    (hk : ∀ d ∈ ds, d.kind.ofClass = true) :
    t.defineEach ds = (t.ofClass.defineEach ds).map fun s => { t with ofClass := s } := by
  induction ds generalizing t with
  | nil => rfl
  | cons d ds ih =>
    obtain ⟨ofClass, ofSubroutine⟩ := t
    have hd := hk d (List.mem_cons_self ..)
    have hds := fun e he => hk e (List.mem_cons_of_mem _ he)
    simp only [defineEach, Scope.defineEach, define, hd, if_true]
    cases hv : ofClass.define d.name d.type d.kind with
    | mk v s =>
      cases v with
      | some v => exact ih hds
      | none => rfl

/-- Variables of a subroutine are defined in the scope of the subroutine. -/
theorem defineEach_of_not_ofClass {t : SymbolTable} {ds : List Declaration}
    (hk : ∀ d ∈ ds, d.kind.ofClass = false) :
    t.defineEach ds = (t.ofSubroutine.defineEach ds).map fun s => { t with ofSubroutine := s } := by
  induction ds generalizing t with
  | nil => rfl
  | cons d ds ih =>
    obtain ⟨ofClass, ofSubroutine⟩ := t
    have hd := hk d (List.mem_cons_self ..)
    have hds := fun e he => hk e (List.mem_cons_of_mem _ he)
    simp only [defineEach, Scope.defineEach, define, hd, Bool.false_eq_true, if_false]
    cases hv : ofSubroutine.define d.name d.type d.kind with
    | mk v s =>
      cases v with
      | some v => exact ih hds
      | none => rfl

end SymbolTable

/-! ### Names in a subroutine -/

/-- How the names in the body of a subroutine are understood. -/
structure Naming where
  /-- The variable that a name stands for, if there is one. -/
  lookup : String → Option Variable
  /-- The class that the subroutine belongs to. -/
  className : String

/-- How names are understood in a subroutine of a class: the declarations of the subroutine come
first, then those of the class, then what the scope of the class held before. -/
def Subroutine.naming (s : Subroutine) (c : Class) (outer : Scope) : Naming where
  lookup name :=
    (declared (fun _ => 0) name (s.declarations c.name.name).reverse).or
      ((declared outer.count name c.declarations.reverse).or (outer.lookup name))
  className := c.name.name

/-- **A table answers from the declarations** of the class and the current subroutine. -/
theorem SymbolTable.lookup_of_declared {outer classScope scope : Scope} {c : Class} {s : Subroutine}
    (hc : outer.defineEach c.declarations = some classScope)
    (hs : Scope.empty.defineEach (s.declarations c.name.name) = some scope) :
    (⟨classScope, scope⟩ : SymbolTable).lookup = (s.naming c outer).lookup := by
  funext name
  have hzero : Scope.empty.count = fun _ => 0 := funext Scope.count_empty
  simp only [SymbolTable.lookup, Subroutine.naming]
  rw [Scope.lookup_of_defineEach hs, Scope.lookup_of_defineEach hc, Scope.lookup_empty, hzero,
    Option.or_none]

/-- How many local variables a subroutine declares. -/
def Subroutine.localCount (s : Subroutine) : Nat := (s.locals.map fun d => d.names.length).sum

theorem Subroutine.countOfKind_local (className : String) (s : Subroutine) :
    countOfKind .local (s.declarations className) = s.localCount := by
  have hthis : countOfKind .local (if s.kind = .method then [⟨"this", className, .argument⟩]
      else []) = 0 := by
    split <;> rfl
  have hparameters (ps : List Parameter) :
      countOfKind .local (ps.map fun p => ⟨p.name.name, p.type.name, .argument⟩) = 0 := by
    induction ps with
    | nil => rfl
    | cons p ps ih => exact ih
  have hlocals (ds : List VarDec) :
      countOfKind .local (ds.flatMap fun d => d.names.map fun x => ⟨x.name, d.type.name, .local⟩) =
        (ds.map fun d => d.names.length).sum := by
    induction ds with
    | nil => rfl
    | cons d ds ih =>
      rw [List.flatMap_cons, List.map_cons, List.sum_cons, ← ih]
      simp [countOfKind, List.countP_append, List.countP_map]
  unfold declarations
  simp only [countOfKind, List.countP_append] at hthis hparameters hlocals ⊢
  rw [hthis, hparameters, hlocals, Nat.zero_add]
  rfl

/-- How many fields the objects of a class have, when `outer` are in scope before its
declarations. -/
def Class.fieldCount (c : Class) (outer : Scope) : Nat :=
  outer.count .field + countOfKind .field c.declarations

end JackToolchain.Jack
