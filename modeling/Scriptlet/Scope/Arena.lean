import Scriptlet.Scope

/-!
# The arena of scopes

Scopes live in numbered slots and refer to one another by slot number. A released slot is vacant
until the next new scope takes it; the slot released last is taken first. Slot zero holds the global
scope and is never released.

Handles are plain numbers, and **stale ones are allowed**: a handle of a vacant slot binds nothing,
and one of a slot that was taken again means its present scope. A search that meets a vacant slot
ends there without a result. It follows at most as many links as there are slots, which is enough
for every chain that ends.

An operation gives its result together with the arena after it, also where it fails.
-/

namespace Scriptlet

/-- Slots of scopes, and the vacant ones with the slot to take next in front. -/
structure Arena where
  slots : Array (Option Scope)
  free : List ScopeId
deriving Repr

namespace Arena

/-- The handle of the global scope. -/
def global : ScopeId := 0

/-- An arena that holds only an empty global scope. -/
def new : Arena :=
  ⟨#[some (.empty none)], []⟩

/-- The number of scopes, the global one among them. -/
def live (a : Arena) : Nat :=
  a.slots.size - a.free.length

/-- The scope of a handle, unless its slot is vacant. -/
def scope? (a : Arena) (id : ScopeId) : Option Scope :=
  (a.slots[id]?).join

/-- Puts a scope into a slot. -/
def store (a : Arena) (id : ScopeId) (s : Scope) : Arena :=
  { a with slots := a.slots.setIfInBounds id (some s) }

/-- Opens an empty scope inside another. -/
def push (a : Arena) (parent : ScopeId) : ScopeId × Arena :=
  match a.free with
  | id :: free => (id, ⟨a.slots.setIfInBounds id (some (.empty (some parent))), free⟩)
  | [] => (a.slots.size, ⟨a.slots.push (some (.empty (some parent))), []⟩)

/-- Vacates the slot of a scope and gives the scope around it. The global scope and vacant slots
stay as they are. -/
def release (a : Arena) (id : ScopeId) : Option ScopeId × Arena :=
  if id = global then (none, a)
  else match a.scope? id with
    | none => (none, a)
    | some s => (s.parent, ⟨a.slots.setIfInBounds id none, id :: a.free⟩)

/-- Releases a scope and the scopes around it, up to and with `base`. -/
def releaseTo (base : ScopeId) : (bound : Nat) → Arena → ScopeId → Arena
  | 0, a, _ => a
  | bound + 1, a, id =>
    match a.release id with
    | (some parent, a) => if id = base then a else releaseTo base bound a parent
    | (none, a) => a

/-- Releases the scopes from `id` outward up to and with `base`; there are no more than slots. -/
def releaseThrough (a : Arena) (id base : ScopeId) : Arena :=
  releaseTo base a.slots.size a id

/-- The first scope that binds a name, among so many from a scope outward. -/
def searchFrom (a : Arena) (name : String) : (bound : Nat) → ScopeId → Option ScopeId
  | 0, _ => none
  | bound + 1, id =>
    match a.scope? id with
    | none => none
    | some s =>
      if s.binds name then some id
      else match s.parent with
        | none => none
        | some parent => searchFrom a name bound parent

/-- The first scope that binds a name, from a scope outward. -/
def resolve (a : Arena) (id : ScopeId) (name : String) : Option ScopeId :=
  searchFrom a name a.slots.size id

/-- The variable that a name means in a scope, with the scope that binds it. -/
def lookup (a : Arena) (id : ScopeId) (name : String) : Option (ScopeId × Scope × Var) := do
  let owner ← a.resolve id name
  let s ← a.scope? owner
  let v ← s.find? name
  return (owner, s, v)

/-- Declares a name in a scope. The value is coerced first, so a value that does not fit is reported
before a name that is taken. -/
def declare (a : Arena) (id : ScopeId) (name : String) (type : Tag) (v : Value) :
    Except ScopeError Unit × Arena :=
  match v.coerce type with
  | .error e => (.error (.value e), a)
  | .ok v =>
    match a.scope? id with
    | none => (.error (.unknown name), a)
    | some s =>
      if s.binds name then (.error (.alreadyDeclared name), a)
      else (.ok (), a.store id (s.insert name ⟨type, v⟩))

/-- The value of a name in a scope. -/
def get (a : Arena) (id : ScopeId) (name : String) : Except ScopeError Value :=
  match a.lookup id name with
  | some (_, _, v) => .ok v.value
  | none => .error (.unknown name)

/-- Replaces the value of a name by what `f` makes of it, **without** coercion. -/
def update (a : Arena) (id : ScopeId) (name : String) (f : Value → Except ValueError Value) :
    Except ScopeError Unit × Arena :=
  match a.lookup id name with
  | none => (.error (.unknown name), a)
  | some (owner, s, var) =>
    match f var.value with
    | .error e => (.error (.value e), a)
    | .ok w => (.ok (), a.store owner (s.replace name w))

/-- Assigns to a name that is bound in the scope or around it. -/
def set (a : Arena) (id : ScopeId) (name : String) (v : Value) : Except ScopeError Unit × Arena :=
  match a.lookup id name with
  | none => (.error (.unknown name), a)
  | some (owner, s, var) =>
    match v.coerce var.type with
    | .error e => (.error (.value e), a)
    | .ok w => (.ok (), a.store owner (s.replace name w))

/-- Assigns to a name that is bound, and else declares it in the scope itself for any value. -/
def assign (a : Arena) (id : ScopeId) (name : String) (v : Value) :
    Except ScopeError Unit × Arena :=
  if (a.resolve id name).isSome then a.set id name v else a.declare id name .auto v

/-- Removes the first binding of a name, from a scope outward, and tells whether there was one. -/
def unset (a : Arena) (id : ScopeId) (name : String) : Bool × Arena :=
  match a.lookup id name with
  | none => (false, a)
  | some (owner, s, _) => (true, a.store owner (s.erase name))

/-- The names and values of one scope in order of declaration; none for a vacant slot. -/
def snapshot (a : Arena) (id : ScopeId) : List (String × Value) :=
  match a.scope? id with
  | none => []
  | some s => s.toList

end Arena

end Scriptlet
