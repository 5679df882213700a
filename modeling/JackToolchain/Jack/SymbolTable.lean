import Std.Data.HashMap
import JackToolchain.VM.Command

/-!
# Symbol tables

A variable of a Jack class has a name, a type, and one of four kinds, which says whom it belongs to
and in which segment of the virtual machine it lives.  Variables of one kind are numbered from zero
in the order of their definitions, and a kind has indices for at most 65535 of them.

A `Scope` binds names and counts definitions by kind; to define a name again replaces its binding
but not its index, which stays used.  A `SymbolTable` has a scope for the class and, in front of it,
one for the current subroutine, which begins anew with each subroutine.
-/

namespace JackToolchain.Jack

/-- Whom a variable belongs to. -/
inductive VarKind where
  | static | field | argument | local
deriving Repr, DecidableEq, Inhabited

namespace VarKind

/-- The segment that variables of a kind live in. -/
def segment : VarKind → VM.Segment
  | static => .statics
  | field => .this
  | argument => .argument
  | .local => .locals

/-- Whether variables of a kind belong to a class and not to a subroutine. -/
def ofClass : VarKind → Bool
  | static | field => true
  | argument | .local => false

end VarKind

/-- A variable as it has been defined. -/
structure Variable where
  name : String
  type : String
  kind : VarKind
  /-- Its number among the variables of its kind. -/
  index : Word
deriving Repr, DecidableEq, Inhabited

/-- How many variables of each kind there are. -/
structure Counts where
  statics : Nat := 0
  fields : Nat := 0
  arguments : Nat := 0
  locals : Nat := 0
deriving Repr, DecidableEq, Inhabited

namespace Counts

/-- The count of one kind. -/
def get (c : Counts) : VarKind → Nat
  | .static => c.statics
  | .field => c.fields
  | .argument => c.arguments
  | .local => c.locals

/-- One more of a kind. -/
def increment (c : Counts) : VarKind → Counts
  | .static => { c with statics := c.statics + 1 }
  | .field => { c with fields := c.fields + 1 }
  | .argument => { c with arguments := c.arguments + 1 }
  | .local => { c with locals := c.locals + 1 }

theorem get_increment (c : Counts) (k j : VarKind) :
    (c.increment k).get j = c.get j + if k = j then 1 else 0 := by
  cases k <;> cases j <;> simp [get, increment]

end Counts

/-! ### Scopes -/

/-- The names of one level. -/
structure Scope where
  bindings : Std.HashMap String Variable := {}
  counts : Counts := {}

namespace Scope

/-- The scope that binds nothing. -/
def empty : Scope := {}

/-- Defines a variable, unless its kind has no index left. -/
def define : Scope → String → String → VarKind → Option Variable × Scope
  | ⟨bindings, counts⟩, name, type, kind =>
    let index := counts.get kind
    if index < Word.maxNat then
      let v : Variable := ⟨name, type, kind, BitVec.ofNat 16 index⟩
      (some v, ⟨bindings.insert name v, counts.increment kind⟩)
    else
      (none, ⟨bindings, counts⟩)

/-- The variable that a name is bound to. -/
def lookup (s : Scope) (name : String) : Option Variable := s.bindings[name]?

/-- How many variables of a kind have been defined. -/
def count (s : Scope) (kind : VarKind) : Nat := s.counts.get kind

end Scope

/-! ### Tables -/

/-- The names of a class and of its current subroutine. -/
structure SymbolTable where
  ofClass : Scope := {}
  ofSubroutine : Scope := {}

namespace SymbolTable

/-- The table that binds nothing. -/
def empty : SymbolTable := {}

/-- Defines a variable in the scope that its kind belongs to, unless the kind has no index left. -/
def define : SymbolTable → String → String → VarKind → Option Variable × SymbolTable
  | ⟨ofClass, ofSubroutine⟩, name, type, kind =>
    if kind.ofClass then
      let (v, s) := ofClass.define name type kind
      (v, ⟨s, ofSubroutine⟩)
    else
      let (v, s) := ofSubroutine.define name type kind
      (v, ⟨ofClass, s⟩)

/-- Begins a new subroutine. -/
def reset (t : SymbolTable) : SymbolTable := { t with ofSubroutine := .empty }

/-- The variable that a name stands for.  The subroutine's variables come before those of the
class. -/
def lookup (t : SymbolTable) (name : String) : Option Variable :=
  (t.ofSubroutine.lookup name).or (t.ofClass.lookup name)

/-- How many variables of a kind there are. -/
def count (t : SymbolTable) (kind : VarKind) : Nat :=
  if kind.ofClass then t.ofClass.count kind else t.ofSubroutine.count kind

end SymbolTable

end JackToolchain.Jack
