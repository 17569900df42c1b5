import Scriptlet.Host

/-!
# Stock builtins

Builtins for a host that only listens: what is printed is a list of lines. A stock builtin has a
behaviour, and its name and number of arguments are the host's choice. It remembers nothing.
-/

namespace Scriptlet

/-- What a stock builtin does. -/
inductive Stock where
  /-- Shows its arguments as a line. -/
  | print
  /-- The number of characters or items of its first argument. -/
  | length
  /-- Fails with its arguments as the reason. -/
  | fail
  /-- Its arguments as a list. -/
  | pack
  /-- The name of the type of its first argument. -/
  | typeName
  /-- Always the same value. -/
  | const (v : Value)
deriving Repr

namespace Stock

/-- The value for some arguments, or why there is none. -/
def result : Stock → List Value → Except String Value
  | print, _ => .ok .null
  | length, .str s :: _ => .ok (.int (.ofNat s.length))
  | length, .list items :: _ => .ok (.int (.ofNat items.length))
  | length, v :: _ => .error s!"no length: {v.tag.text}"
  | length, [] => .error "no argument"
  | fail, args => .error (Value.joined args)
  | pack, args => .ok (.list args)
  | typeName, v :: _ => .ok (.str v.tag.text)
  | typeName, [] => .error "no argument"
  | const v, _ => .ok v

/-- What a call shows. -/
def shows : Stock → List Value → Option String
  | print, args => some (Value.joined args)
  | _, _ => none

/-- The builtin under a name. -/
def builtin (k : Stock) (name : String) (arity : Option Nat) : Builtin :=
  { name, arity, answer := fun _ ↦ k.result, shows := fun _ ↦ k.shows }

/-- The table of a host that has no wishes of its own. -/
def table : Table :=
  .ofList [
    print.builtin "print" none,
    length.builtin "len" (some 1),
    fail.builtin "fail" none,
    pack.builtin "pack" none,
    typeName.builtin "type" (some 1),
    (const .null).builtin "Screen.clear" (some 0)]

end Stock

end Scriptlet
