import Scriptlet.Tree
import Scriptlet.Tree.Read.Token

/-!
# Reading expressions

Expressions follow one scheme for all binary operators: each has a level, and an operand of one
level is an expression of the next. Operators of one level group from the left.

Readers recurse on fuel. Between two recursive calls without a token taken there are only so many
readers, so a fixed multiple of the number of tokens is enough.
-/

namespace Scriptlet

open Reader

/-- The binary operator that a symbol is. -/
def BinaryOp.ofSymbol? : Symbol → Option BinaryOp
  | .or => some .or
  | .and => some .and
  | .equalEqual => some .equal
  | .bangEqual => some .notEqual
  | .less => some (.compare .less)
  | .lessEqual => some (.compare .lessEqual)
  | .greater => some (.compare .greater)
  | .greaterEqual => some (.compare .greaterEqual)
  | .plus => some .add
  | .minus => some .subtract
  | .star => some .multiply
  | .slash => some .divide
  | _ => none

/-- The level of a binary operator; operators of a higher level bind more tightly. -/
def BinaryOp.level : BinaryOp → Nat
  | .or => 0
  | .and => 1
  | .equal | .notEqual | .compare _ => 2
  | .add | .subtract => 3
  | .multiply | .divide => 4

/-- The level above all binary operators: operands of the tightest of them. -/
def unaryLevel : Nat := 5

/-- Takes a binary operator of a level if it is next. -/
def Reader.acceptBinary? (level : Nat) : Reader (Option BinaryOp) :=
  fun ts ↦ match ts.ahead with
    | ⟨.symbol s, _⟩ :: rest =>
      match BinaryOp.ofSymbol? s with
      | some op =>
        if op.level = level then .ok (some op, { ts with ahead := rest }) else .ok (none, ts)
      | none => .ok (none, ts)
    | _ => .ok (none, ts)

mutual

/-- An expression of a level: operands of the next level with operators of this one between them,
grouped from the left. -/
def readLevel : (fuel level : Nat) → Reader Expr
  | 0, _ => exhausted
  | fuel + 1, level =>
    if level < unaryLevel then do
      let left ← readLevel fuel (level + 1)
      readMore fuel level left
    else readUnary fuel

/-- The operators and operands of a level that follow an expression of it. -/
def readMore : (fuel level : Nat) → Expr → Reader Expr
  | 0, _, _ => exhausted
  | fuel + 1, level, left => do
    match ← acceptBinary? level with
    | none => return left
    | some op =>
      let right ← readLevel fuel (level + 1)
      readMore fuel level (.binary op left right)

/-- A chain of signs and what it applies to. -/
def readUnary : (fuel : Nat) → Reader Expr
  | 0 => exhausted
  | fuel + 1 => do
    if ← accept .minus then
      let e ← readUnary fuel
      return .unary .negate e
    else if ← accept .bang then
      let e ← readUnary fuel
      return .unary .not e
    else
      let e ← readPrimary fuel
      readItems fuel e

/-- The indices and stretches that follow an expression. -/
def readItems : (fuel : Nat) → Expr → Reader Expr
  | 0, _ => exhausted
  | fuel + 1, e => do
    if ← accept .leftBracket then
      let i ← readLevel fuel 0
      if ← accept .colon then
        let j ← readLevel fuel 0
        consume .rightBracket "after slice"
        readItems fuel (.slice e i j)
      else
        consume .rightBracket "after index"
        readItems fuel (.index e i)
    else return e

/-- A literal, a variable, a call, a list, or an expression between parentheses. -/
def readPrimary : (fuel : Nat) → Reader Expr
  | 0 => exhausted
  | fuel + 1 => do
    match ← peek? with
    | some (.int n) =>
      let _ ← advance
      return .int n
    | some (.float x) =>
      let _ ← advance
      return .float x
    | some (.str s) =>
      let _ ← advance
      return .str s
    | some (.bool b) =>
      let _ ← advance
      return .bool b
    | some (.keyword .null) =>
      let _ ← advance
      return .null
    | some (.name s) =>
      let _ ← advance
      if ← accept .leftParen then
        let args ← readArgs fuel .rightParen
        return .call s args
      else return .var s
    | some (.symbol .leftParen) =>
      let _ ← advance
      let e ← readLevel fuel 0
      consume .rightParen "after expression"
      return e
    | some (.symbol .leftBracket) =>
      let _ ← advance
      let items ← readArgs fuel .rightBracket
      return .list items
    | none | some (.keyword _) | some (.symbol _) => unexpected .expression

/-- Expressions with commas between them, up to and with a closing symbol. -/
def readArgs : (fuel : Nat) → (close : Symbol) → Reader (List Expr)
  | 0, _ => exhausted
  | fuel + 1, close => do
    if ← at? close then
      consume close "to close the list"
      return []
    else
      let e ← readLevel fuel 0
      let es ← readMoreArgs fuel
      consume close "to close the list"
      return e :: es

/-- The further expressions of a list, each behind a comma. -/
def readMoreArgs : (fuel : Nat) → Reader (List Expr)
  | 0 => exhausted
  | fuel + 1 => do
    if ← accept .comma then
      let e ← readLevel fuel 0
      let es ← readMoreArgs fuel
      return e :: es
    else return []

end

/-- An expression. -/
def readExpr (fuel : Nat) : Reader Expr :=
  readLevel fuel 0

end Scriptlet
