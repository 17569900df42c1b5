import Scriptlet.Value.Convert

/-!
# Scopes

A scope binds names to variables in the order of their declaration and knows the scope around it by
its handle. Removing a name leaves the others in order; declaring it again puts it last.
-/

namespace Scriptlet

/-- A variable: its declared type and its value. -/
structure Var where
  type : Tag
  value : Value
deriving Repr

/-- A handle of a scope: the number of its slot. It stands for a number of 32 bits but is not
bounded here, so all that is said of arenas assumes **fewer than 2 ^ 32 slots**. -/
abbrev ScopeId := Nat

/-- The variables declared in one block or call, and the scope around it. -/
structure Scope where
  vars : List (String × Var)
  parent : Option ScopeId
deriving Repr

namespace Scope

/-- A scope without variables. -/
def empty (parent : Option ScopeId) : Scope :=
  ⟨[], parent⟩

/-- The variable of a name in this scope. -/
def find? (s : Scope) (name : String) : Option Var :=
  s.vars.lookup name

/-- The name is bound in this scope. -/
def binds (s : Scope) (name : String) : Bool :=
  (s.find? name).isSome

/-- The scope with one more variable, after all others. -/
def insert (s : Scope) (name : String) (v : Var) : Scope :=
  { s with vars := s.vars ++ [(name, v)] }

/-- The bindings with another value for a name. -/
def replaceIn (name : String) (value : Value) : List (String × Var) → List (String × Var)
  | [] => []
  | (n, v) :: rest =>
    if n == name then (n, { v with value := value }) :: rest
    else (n, v) :: replaceIn name value rest

/-- The scope with another value for a name; its place and its type stay. -/
def replace (s : Scope) (name : String) (value : Value) : Scope :=
  { s with vars := replaceIn name value s.vars }

/-- The scope without a name. -/
def erase (s : Scope) (name : String) : Scope :=
  { s with vars := s.vars.eraseP fun b ↦ b.1 == name }

/-- The names and values in order of declaration. -/
def toList (s : Scope) : List (String × Value) :=
  s.vars.map fun b ↦ (b.1, b.2.value)

end Scope

/-- Why a variable cannot be declared, read or written. -/
inductive ScopeError where
  | unknown (name : String)
  | alreadyDeclared (name : String)
  | value (e : ValueError)
deriving Repr, DecidableEq

/-- The text of a failed access. -/
def ScopeError.message : ScopeError → String
  | unknown name => s!"unknown variable '{name}'"
  | alreadyDeclared name => s!"'{name}' is already declared in this scope"
  | value e => e.message

end Scriptlet
