import Scriptlet.Value.Convert

/-!
# The host

A program calls what it does not define itself from a table that its host provides. A builtin says
what it gives back, and what it shows to the outside when it is called. Both depend on its arguments
and on **the calls made before**, of this builtin and of all others: what a host remembers, it
remembers from calls. What a run has shown is therefore known from the calls it made.
-/

namespace Scriptlet

/-- A call of a builtin that was made. -/
structure Call where
  name : String
  args : List Value
deriving Repr

/-- A function of the host. -/
structure Builtin where
  name : String
  /-- The number of arguments, or none if any number will do. -/
  arity : Option Nat
  /-- The value for some arguments after the calls made before, or why there is none. -/
  answer : (before : Array Call) → (args : List Value) → Except String Value
  /-- What a call shows to the outside, after the calls made before. -/
  shows : (before : Array Call) → (args : List Value) → Option String := fun _ _ ↦ none

namespace Builtin

/-- The value for some arguments where nothing was called before. -/
def result (b : Builtin) (args : List Value) : Except String Value :=
  b.answer #[] args

/-- A builtin in a report: its name, and that it is one. -/
def text (b : Builtin) : String :=
  s!"Builtin({b.name})"

end Builtin

/-- Builtins, each name once. -/
structure Table where
  builtins : List Builtin

namespace Table

/-- A table without builtins. -/
def empty : Table :=
  ⟨[]⟩

/-- The builtin of a name. -/
def find? (t : Table) (name : String) : Option Builtin :=
  t.builtins.find? fun b ↦ b.name == name

/-- Adds a builtin in place of one of the same name. -/
def register (t : Table) (b : Builtin) : Table :=
  ⟨t.builtins.filter (fun b' ↦ b'.name != b.name) ++ [b]⟩

/-- A table of some builtins; of two with one name the later stays. -/
def ofList (bs : List Builtin) : Table :=
  bs.foldl register empty

/-- The number of builtins. -/
def size (t : Table) : Nat :=
  t.builtins.length

/-- What some calls have shown, in order, after the calls made before. -/
def shownAfter (t : Table) (before : Array Call) : List Call → List String
  | [] => []
  | c :: calls =>
    let shown := (t.find? c.name).bind fun b ↦ b.shows before c.args
    shown.toList ++ shownAfter t (before.push c) calls

/-- What some calls have shown, in order. -/
def shown (t : Table) (calls : List Call) : List String :=
  t.shownAfter #[] calls

end Table

end Scriptlet
