import Scriptlet.Tree.Context
import Scriptlet.Tree.Read.Expr
import Scriptlet.Value.Convert

/-!
# Reading statements

A statement is told from its first tokens by `Form.ofTokens`. Only an assignment to an item needs to
look further ahead, over the matching bracket.

Types and structure are checked while the statement is read, so that of several faults **the one met
first** is reported; a few checks wait for the end of their statement on purpose.
-/

namespace Scriptlet

open Reader

/-- The tokens after a name close the bracket that they open and go on with `=`. The search ends at
a semicolon. -/
def assignsItem : (depth : Nat) → List Token → Bool
  | _, [] => false
  | depth, t :: rest =>
    match t.kind with
    | .symbol .leftBracket => assignsItem (depth + 1) rest
    | .symbol .rightBracket =>
      if depth ≤ 1 then startsWith .equal rest else assignsItem (depth - 1) rest
    | .symbol .semicolon => false
    | _ => assignsItem depth rest

/-- The forms of a statement. -/
inductive Form where
  | declare | condition | loop | breakLoop | continueLoop | function | giveBack | exit | unset
  | uses | block
  | increment | decrement
  | assign | assignAt
  | eval
deriving Repr, DecidableEq

/-- The form that tokens start with. -/
def Form.ofTokens : List Token → Form
  | [] => .eval
  | t :: rest =>
    match t.kind with
    | .keyword .let_ => .declare
    | .keyword .if_ => .condition
    | .keyword .while_ => .loop
    | .keyword .break_ => .breakLoop
    | .keyword .continue_ => .continueLoop
    | .keyword .func => .function
    | .keyword .return_ => .giveBack
    | .keyword .exit => .exit
    | .keyword .del => .unset
    | .keyword .import_ => .uses
    | .symbol .leftBrace => .block
    | .symbol .plus => if startsWith .plus rest then .increment else .eval
    | .symbol .minus => if startsWith .minus rest then .decrement else .eval
    | .name _ =>
      if startsWith .equal rest then .assign
      else if startsWith .leftBracket rest && assignsItem 0 rest then .assignAt
      else .eval
    | _ => .eval

/-- The form of the statement ahead. -/
def Reader.form : Reader Form :=
  fun ts ↦ .ok (Form.ofTokens ts.ahead, ts)

/-- The value of a literal token. -/
def Kind.literal? : Kind → Option Value
  | .int n => some (.int n)
  | .float x => some (.float x)
  | .str s => some (.str s)
  | .bool b => some (.bool b)
  | .keyword .null => some .null
  | _ => none

/-- A literal that makes up a whole initial value must fit the declared type. Any other initial
value is coerced when the program runs. -/
def Reader.fitsLiteral (declared : Tag) : Reader Unit :=
  fun ts ↦ match ts.ahead with
    | t :: rest =>
      match t.kind.literal? with
      | some v =>
        if startsWith .semicolon rest then
          match v.coerce declared with
          | .ok _ => .ok ((), ts)
          | .error _ => .error ⟨.literal declared v.tag, t.span⟩
        else .ok ((), ts)
      | none => .ok ((), ts)
    | [] => .ok ((), ts)

/-- The type of a declaration: `null` for a variable that starts as null and takes any value, a
type, or nothing. Tells also whether it was `null`, since no initial value may follow then. -/
def readType : Reader (Bool × Tag) := do
  if ← acceptKeyword .null then return (true, .auto)
  else
    let type ← acceptType?
    return (false, type.getD .auto)

/-- The initial value of a declaration, if there is one. -/
def readInit (fuel : Nat) (isNull : Bool) (type : Tag) : Reader (Option Expr) := do
  if isNull then return none
  else if ← accept .equal then
    fitsLiteral type
    let e ← readExpr fuel
    return some e
  else return none

/-- `let`, the modifiers and the type, the name, and perhaps an initial value. The name is bound
behind the semicolon, so the value does not see it. -/
def readDeclare (fuel : Nat) (c : Context) : Reader (Stmt × Context) := do
  let _ ← advance
  let isConst ← acceptKeyword .const
  let _ ← acceptKeyword .static
  let (isNull, type) ← readType
  let (name, span) ← consumeName "after 'let'"
  let init ← readInit fuel isNull type
  consume .semicolon "after variable declaration"
  let c ← check (c.declare name (if isConst then .constant else .mutable)) span
  return (.declare isConst type name init, c)

/-- A name, `=` and a value. -/
def readAssign (fuel : Nat) (c : Context) : Reader (Stmt × Context) := do
  let (name, span) ← consumeName "as assignment target"
  check (c.assignable name) span
  consume .equal "in assignment"
  let value ← readExpr fuel
  consume .semicolon "after assignment"
  return (.assign name value, c.assigned name)

/-- A name, an index between brackets, `=` and a value. -/
def readAssignAt (fuel : Nat) (c : Context) : Reader (Stmt × Context) := do
  let (name, span) ← consumeName "as assignment target"
  check (c.assignable name) span
  consume .leftBracket "before index"
  let i ← readExpr fuel
  consume .rightBracket "after index"
  consume .equal "in indexed assignment"
  let value ← readExpr fuel
  consume .semicolon "after assignment"
  return (.assignAt name i value, c)

/-- Two signs and a name. -/
def readStep (op : BinaryOp) (context : String) (c : Context) : Reader (Stmt × Context) := do
  let _ ← advance
  let _ ← advance
  let (name, span) ← consumeName context
  check (c.assignable name) span
  consume .semicolon "to end the statement"
  return (.step op name, c)

/-- The number of loops to leave, one if there is none. -/
def readDepth : Reader Nat := do
  match ← peek? with
  | some (.int n) =>
    let _ ← advance
    return n.toInt.toNat
  | _ => return 1

/-- `break` and perhaps a number of loops. -/
def readBreak (c : Context) : Reader (Stmt × Context) := do
  let span ← advance
  let depth ← readDepth
  consume .semicolon "after 'break'"
  check (c.enclosing .break_ depth) span
  return (.breakLoop depth, c)

/-- `continue`. -/
def readContinue (c : Context) : Reader (Stmt × Context) := do
  let span ← advance
  consume .semicolon "after 'continue'"
  check (c.enclosing .continue_ 1) span
  return (.continueLoop, c)

/-- `return` and perhaps a value. Whether there may be one is checked before the value is read. -/
def readReturn (fuel : Nat) (c : Context) : Reader (Stmt × Context) := do
  let span ← advance
  let isBare ← at? .semicolon
  check (c.mayReturn isBare) span
  if isBare then
    let _ ← advance
    return (.giveBack none, c)
  else
    let value ← readExpr fuel
    consume .semicolon "after return value"
    return (.giveBack (some value), c)

/-- `exit`. -/
def readExit (c : Context) : Reader (Stmt × Context) := do
  let _ ← advance
  consume .semicolon "after 'exit'"
  return (.exit, c)

/-- `del` and a name. -/
def readUnset (c : Context) : Reader (Stmt × Context) := do
  let _ ← advance
  let (name, span) ← consumeName "after 'del'"
  check (c.assignable name) span
  consume .semicolon "after 'del'"
  return (.unset name, c.forget name)

/-- The target of an `import`. -/
def readTarget : Reader String := do
  match ← peek? with
  | some (.name s) =>
    let _ ← advance
    return s
  | some (.str s) =>
    let _ ← advance
    return s
  | _ => unexpected .moduleName

/-- `import` and a name or a string. -/
def readUses (c : Context) : Reader (Stmt × Context) := do
  let _ ← advance
  let target ← readTarget
  consume .semicolon "after import"
  return (.uses target, c)

/-- An expression for its effect. -/
def readEval (fuel : Nat) (c : Context) : Reader (Stmt × Context) := do
  let e ← readExpr fuel
  consume .semicolon "after expression"
  return (.eval e, c)

/-- The condition of an `if`, `elif` or `while`, between parentheses. -/
def readCondition (fuel : Nat) (context : String) : Reader Expr := do
  consume .leftParen context
  let condition ← readExpr fuel
  consume .rightParen "after condition"
  return condition

/-- The parameters behind those in `params`, each after a comma but the first. -/
def readParams : (fuel : Nat) → (params : List String) → Reader (List String)
  | 0, _ => exhausted
  | fuel + 1, params => do
    let (param, span) ← consumeName "for parameter name"
    if params.contains param then fail (.duplicateParam param) span
    else if ← accept .comma then readParams fuel (params ++ [param])
    else return params ++ [param]

/-- What a function gives back: `void`, a type, or anything. -/
def readReturns : Reader Returns := do
  if ← acceptKeyword .void then return .void
  else match ← acceptType? with
    | none => return .any
    | some .auto => return .any
    | some t => return .typed t

/-- The parameters of a function between their parentheses. -/
def readParamList (fuel : Nat) : Reader (List String) := do
  consume .leftParen "after function name"
  let params ← if ← at? .rightParen then pure [] else readParams fuel []
  consume .rightParen "after parameters"
  return params

/-- The head of a function after `func`. The name must not be that of a function before it. -/
def readHead (fuel : Nat) (c : Context) : Reader Head := do
  let _ ← acceptKeyword .inline
  let isTail ← acceptKeyword .tail
  let returns ← readReturns
  let (name, span) ← consumeName "for function name"
  if c.functions.contains name then fail (.functionDefined name) span
  else
    let params ← readParamList fuel
    return ⟨name, isTail, returns, params⟩

mutual

/-- A statement, and what is known behind it. -/
def readStmt : (fuel : Nat) → Context → Reader (Stmt × Context)
  | 0, _ => exhausted
  | fuel + 1, c => do
    match ← form with
    | .declare => readDeclare fuel c
    | .condition =>
      let _ ← advance
      readIf fuel c
    | .loop =>
      let _ ← advance
      let condition ← readCondition fuel "after 'while'"
      let (body, c) ← readBlock fuel c.enterLoop
      return (.whileLoop condition body, c.exitLoop)
    | .breakLoop => readBreak c
    | .continueLoop => readContinue c
    | .function =>
      let _ ← advance
      let head ← readHead fuel c
      consume .leftBrace "before function body"
      let (body, inner) ←
        readBody fuel (c.enterFunction head.name (head.returns == .void) head.params)
      return (.function head body, c.exitFunction inner)
    | .giveBack => readReturn fuel c
    | .exit => readExit c
    | .unset => readUnset c
    | .uses => readUses c
    | .block =>
      let (body, c) ← readBlock fuel c
      return (.block body, c)
    | .increment => readStep .add "after '++'" c
    | .decrement => readStep .subtract "after '--'" c
    | .assign => readAssign fuel c
    | .assignAt => readAssignAt fuel c
    | .eval => readEval fuel c

/-- The condition and the body of an `if` or `elif`, and its alternative. -/
def readIf : (fuel : Nat) → Context → Reader (Stmt × Context)
  | 0, _ => exhausted
  | fuel + 1, c => do
    let condition ← readCondition fuel "before condition"
    let (body, c) ← readBlock fuel c
    if ← acceptKeyword .elif then
      let (next, c) ← readIf fuel c
      return (.ifElse condition body [next], c)
    else if ← acceptKeyword .else_ then
      let (last, c) ← readBlock fuel c
      return (.ifElse condition body [.block last], c)
    else return (.ifElse condition body [], c)

/-- Statements between braces, in a block of their own. -/
def readBlock : (fuel : Nat) → Context → Reader (List Stmt × Context)
  | 0, _ => exhausted
  | fuel + 1, c => do
    consume .leftBrace "to open a block"
    let (body, c) ← readBody fuel c.enterBlock
    return (body, c.exitBlock)

/-- Statements up to and with a closing brace. -/
def readBody : (fuel : Nat) → Context → Reader (List Stmt × Context)
  | 0, _ => exhausted
  | fuel + 1, c => do
    if (← at? .rightBrace) || (← atEnd) then
      consume .rightBrace "to close the block"
      return ([], c)
    else
      let (s, c) ← readStmt fuel c
      let (ss, c) ← readBody fuel c
      return (s :: ss, c)

end

end Scriptlet
