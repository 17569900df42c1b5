import Scriptlet.Tree.Read

/-!
# Readers that leave a trace

A reader that fails does not say how far it came, and no reader says what it called on its way. A
tracer says both. It keeps its place when it fails, and it logs an `Activation` for each production
that was at work and for each round of a loop, those inside it included. Without place and log it is
the reader that it traces (`Tracer.erase_stmt`, `Tracer.erase_expr`, `Tracer.erase_all`), so what
holds of every trace holds of every reading.

Tracers follow their readers token by token. A reader becomes a single step of a tracer only if it
fails before it takes anything: then its place at a failure is the place it started from.
-/

namespace Scriptlet

/-- What is at work while tokens are read: a production of the grammar, or one round of a loop over
statements, arguments, parameters, operators, items or the branches of a condition. -/
inductive Production where
  | statement | block | statements
  | level (n : Nat) | unary | primary | arguments
  | round
deriving Repr, DecidableEq

/-- A production that was at work: the tokens that were ahead when it began and when it ended,
whether it succeeded, and what was at work inside it, in order. -/
structure Activation where
  what : Production
  before : List Token
  after : List Token
  succeeded : Bool
  inner : List Activation

/-- What reading came to: the result, the tokens that are still ahead **also after a failure**, and
what was at work, in order. -/
structure Trace (α : Type) where
  result : Except Complaint α
  rest : Tokens
  log : List Activation

/-- A reader that leaves a trace. -/
def Tracer (α : Type) : Type :=
  Tokens → Trace α

namespace Trace

variable {α β : Type}

/-- Goes on where a trace ends, unless it ends with a failure. -/
def andThen (t : Trace α) (f : α → Tracer β) : Trace β :=
  match t.result with
  | .error e => ⟨.error e, t.rest, t.log⟩
  | .ok a => ⟨(f a t.rest).result, (f a t.rest).rest, t.log ++ (f a t.rest).log⟩

/-- What a reader says of a trace. -/
def outcome (t : Trace α) : Except Complaint (α × Tokens) :=
  t.result.map fun a ↦ (a, t.rest)

/-- What a longer trace comes to is what its two parts come to one after the other. -/
theorem outcome_andThen (t : Trace α) (f : α → Tracer β) :
    (t.andThen f).outcome = t.outcome >>= fun p ↦ (f p.1 p.2).outcome := by
  obtain ⟨result, rest, log⟩ := t
  cases result <;> rfl

end Trace

namespace Tracer

open Reader

variable {α β : Type} {fuel : Nat} {c : Context}

instance : Monad Tracer where
  pure a := fun ts ↦ ⟨.ok a, ts, []⟩
  bind x f := fun ts ↦ (x ts).andThen f

/-- A reader that fails before it takes anything, as a single step. -/
def step (r : Reader α) : Tracer α :=
  fun ts ↦ match r ts with
    | .ok (a, rest) => ⟨.ok a, rest, []⟩
    | .error e => ⟨.error e, ts, []⟩

instance : MonadLift Reader Tracer where
  monadLift := step

/-- Logs a production, with all that is at work inside it. -/
def within (p : Production) (x : Tracer α) : Tracer α :=
  fun ts ↦
    ⟨(x ts).result, (x ts).rest,
      [⟨p, ts.ahead, (x ts).rest.ahead, (x ts).result.isOk, (x ts).log⟩]⟩

/-- The reader that is traced. -/
def erase (x : Tracer α) : Reader α :=
  fun ts ↦ (x ts).outcome

/-! ### Expressions -/

mutual

/-- Traces `readLevel`. -/
def level : (fuel n : Nat) → Tracer Expr
  | 0, _ => exhausted
  | fuel + 1, n => within (.level n) <|
    if n < unaryLevel then do
      let left ← level fuel (n + 1)
      more fuel n left
    else unary fuel

/-- Traces `readMore`, the rounds over the operators of a level. -/
def more : (fuel n : Nat) → Expr → Tracer Expr
  | 0, _, _ => exhausted
  | fuel + 1, n, left => do
    match ← acceptBinary? n with
    | none => return left
    | some op =>
      let right ← within .round (level fuel (n + 1))
      more fuel n (.binary op left right)

/-- Traces `readUnary`. -/
def unary : (fuel : Nat) → Tracer Expr
  | 0 => exhausted
  | fuel + 1 => within .unary do
    if ← accept .minus then
      let e ← unary fuel
      return .unary .negate e
    else if ← accept .bang then
      let e ← unary fuel
      return .unary .not e
    else
      let e ← primary fuel
      items fuel e

/-- Traces `readItems`, the rounds over indices and stretches. -/
def items : (fuel : Nat) → Expr → Tracer Expr
  | 0, _ => exhausted
  | fuel + 1, e => do
    if ← accept .leftBracket then
      let item ← within .round do
        let i ← level fuel 0
        if ← accept .colon then
          let j ← level fuel 0
          consume .rightBracket "after slice"
          return .slice e i j
        else
          consume .rightBracket "after index"
          return .index e i
      items fuel item
    else return e

/-- Traces `readPrimary`. -/
def primary : (fuel : Nat) → Tracer Expr
  | 0 => exhausted
  | fuel + 1 => within .primary do
    match ← peek? with
    | some (.int n) =>
      let _ ← advance
      return .int n
    | some (.float x) =>
      let _ ← advance
      return .float x
    | some (.str s) =>
      let _ ← advance
      return .str s
    | some (.bool b) =>
      let _ ← advance
      return .bool b
    | some (.keyword .null) =>
      let _ ← advance
      return .null
    | some (.name s) =>
      let _ ← advance
      if ← accept .leftParen then
        let args ← arguments fuel .rightParen
        return .call s args
      else return .var s
    | some (.symbol .leftParen) =>
      let _ ← advance
      let e ← level fuel 0
      consume .rightParen "after expression"
      return e
    | some (.symbol .leftBracket) =>
      let _ ← advance
      let items ← arguments fuel .rightBracket
      return .list items
    | none | some (.keyword _) | some (.symbol _) => unexpected .expression

/-- Traces `readArgs`; the first argument is the first round. -/
def arguments : (fuel : Nat) → (close : Symbol) → Tracer (List Expr)
  | 0, _ => exhausted
  | fuel + 1, close => within .arguments do
    if ← at? close then
      consume close "to close the list"
      return []
    else
      let e ← within .round (level fuel 0)
      let es ← moreArguments fuel
      consume close "to close the list"
      return e :: es

/-- Traces `readMoreArgs`, the further rounds over arguments. -/
def moreArguments : (fuel : Nat) → Tracer (List Expr)
  | 0 => exhausted
  | fuel + 1 => do
    if ← accept .comma then
      let e ← within .round (level fuel 0)
      let es ← moreArguments fuel
      return e :: es
    else return []

end

/-- Traces `readExpr`. -/
def expr (fuel : Nat) : Tracer Expr :=
  level fuel 0

/-! ### Statements without statements in them -/

/-- Traces `readInit`. -/
def initial (fuel : Nat) (isNull : Bool) (type : Tag) : Tracer (Option Expr) := do
  if isNull then return none
  else if ← accept .equal then
    fitsLiteral type
    let e ← expr fuel
    return some e
  else return none

/-- Traces `readDeclare`. -/
def declare (fuel : Nat) (c : Context) : Tracer (Stmt × Context) := do
  let _ ← advance
  let isConst ← acceptKeyword .const
  let _ ← acceptKeyword .static
  let type ← readType
  let name ← consumeName "after 'let'"
  let init ← initial fuel type.1 type.2
  consume .semicolon "after variable declaration"
  let c ← check (c.declare name.1 (if isConst then .constant else .mutable)) name.2
  return (.declare isConst type.2 name.1 init, c)

/-- Traces `readAssign`. -/
def assign (fuel : Nat) (c : Context) : Tracer (Stmt × Context) := do
  let name ← consumeName "as assignment target"
  check (c.assignable name.1) name.2
  consume .equal "in assignment"
  let value ← expr fuel
  consume .semicolon "after assignment"
  return (.assign name.1 value, c.assigned name.1)

/-- Traces `readAssignAt`. -/
def assignAt (fuel : Nat) (c : Context) : Tracer (Stmt × Context) := do
  let name ← consumeName "as assignment target"
  check (c.assignable name.1) name.2
  consume .leftBracket "before index"
  let i ← expr fuel
  consume .rightBracket "after index"
  consume .equal "in indexed assignment"
  let value ← expr fuel
  consume .semicolon "after assignment"
  return (.assignAt name.1 i value, c)

/-- Traces `readStep`. -/
def stepBy (op : BinaryOp) (context : String) (c : Context) : Tracer (Stmt × Context) := do
  let _ ← advance
  let _ ← advance
  let name ← consumeName context
  check (c.assignable name.1) name.2
  consume .semicolon "to end the statement"
  return (.step op name.1, c)

/-- Traces `readBreak`. -/
def breakLoop (c : Context) : Tracer (Stmt × Context) := do
  let span ← advance
  let depth ← readDepth
  consume .semicolon "after 'break'"
  check (c.enclosing .break_ depth) span
  return (.breakLoop depth, c)

/-- Traces `readContinue`. -/
def continueLoop (c : Context) : Tracer (Stmt × Context) := do
  let span ← advance
  consume .semicolon "after 'continue'"
  check (c.enclosing .continue_ 1) span
  return (.continueLoop, c)

/-- Traces `readReturn`. -/
def giveBack (fuel : Nat) (c : Context) : Tracer (Stmt × Context) := do
  let span ← advance
  let isBare ← at? .semicolon
  check (c.mayReturn isBare) span
  if isBare then
    let _ ← advance
    return (.giveBack none, c)
  else
    let value ← expr fuel
    consume .semicolon "after return value"
    return (.giveBack (some value), c)

/-- Traces `readExit`. -/
def exit (c : Context) : Tracer (Stmt × Context) := do
  let _ ← advance
  consume .semicolon "after 'exit'"
  return (.exit, c)

/-- Traces `readUnset`. -/
def unset (c : Context) : Tracer (Stmt × Context) := do
  let _ ← advance
  let name ← consumeName "after 'del'"
  check (c.assignable name.1) name.2
  consume .semicolon "after 'del'"
  return (.unset name.1, c.forget name.1)

/-- Traces `readUses`. -/
def uses (c : Context) : Tracer (Stmt × Context) := do
  let _ ← advance
  let target ← readTarget
  consume .semicolon "after import"
  return (.uses target, c)

/-- Traces `readEval`. -/
def eval (fuel : Nat) (c : Context) : Tracer (Stmt × Context) := do
  let e ← expr fuel
  consume .semicolon "after expression"
  return (.eval e, c)

/-- Traces `readCondition`. -/
def condition (fuel : Nat) (context : String) : Tracer Expr := do
  consume .leftParen context
  let condition ← expr fuel
  consume .rightParen "after condition"
  return condition

/-- Traces `readParams`, the rounds over parameters. -/
def params : (fuel : Nat) → (before : List String) → Tracer (List String)
  | 0, _ => exhausted
  | fuel + 1, before => do
    let param ← within .round do
      let param ← consumeName "for parameter name"
      if before.contains param.1 then fail (.duplicateParam param.1) param.2
      else return param.1
    if ← accept .comma then params fuel (before ++ [param])
    else return before ++ [param]

/-- Traces `readParamList`. -/
def paramList (fuel : Nat) : Tracer (List String) := do
  consume .leftParen "after function name"
  let names ← if ← at? .rightParen then pure [] else params fuel []
  consume .rightParen "after parameters"
  return names

/-- Traces `readHead`. -/
def head (fuel : Nat) (c : Context) : Tracer Head := do
  let _ ← acceptKeyword .inline
  let isTail ← acceptKeyword .tail
  let returns ← readReturns
  let name ← consumeName "for function name"
  if c.functions.contains name.1 then fail (.functionDefined name.1) name.2
  else
    let names ← paramList fuel
    return ⟨name.1, isTail, returns, names⟩

/-! ### Statements -/

mutual

/-- Traces `readStmt`. -/
def stmt : (fuel : Nat) → Context → Tracer (Stmt × Context)
  | 0, _ => exhausted
  | fuel + 1, c => within .statement do
    match ← form with
    | .declare => declare fuel c
    | .condition =>
      let _ ← advance
      branches fuel c
    | .loop =>
      let _ ← advance
      let test ← condition fuel "after 'while'"
      let body ← block fuel c.enterLoop
      return (.whileLoop test body.1, body.2.exitLoop)
    | .breakLoop => breakLoop c
    | .continueLoop => continueLoop c
    | .function =>
      let _ ← advance
      let head ← head fuel c
      consume .leftBrace "before function body"
      let body ← within .statements
        (stmts fuel (c.enterFunction head.name (head.returns == .void) head.params))
      return (.function head body.1, c.exitFunction body.2)
    | .giveBack => giveBack fuel c
    | .exit => exit c
    | .unset => unset c
    | .uses => uses c
    | .block =>
      let body ← block fuel c
      return (.block body.1, body.2)
    | .increment => stepBy .add "after '++'" c
    | .decrement => stepBy .subtract "after '--'" c
    | .assign => assign fuel c
    | .assignAt => assignAt fuel c
    | .eval => eval fuel c

/-- Traces `readIf`: each branch with a condition is a round. -/
def branches : (fuel : Nat) → Context → Tracer (Stmt × Context)
  | 0, _ => exhausted
  | fuel + 1, c => do
    let branch ← within .round do
      let test ← condition fuel "before condition"
      let body ← block fuel c
      return (test, body)
    if ← acceptKeyword .elif then
      let next ← branches fuel branch.2.2
      return (.ifElse branch.1 branch.2.1 [next.1], next.2)
    else if ← acceptKeyword .else_ then
      let last ← block fuel branch.2.2
      return (.ifElse branch.1 branch.2.1 [.block last.1], last.2)
    else return (.ifElse branch.1 branch.2.1 [], branch.2.2)

/-- Traces `readBlock`. -/
def block : (fuel : Nat) → Context → Tracer (List Stmt × Context)
  | 0, _ => exhausted
  | fuel + 1, c => within .block do
    consume .leftBrace "to open a block"
    let body ← within .statements (stmts fuel c.enterBlock)
    return (body.1, body.2.exitBlock)

/-- Traces `readBody`, the rounds over the statements up to a brace. -/
def stmts : (fuel : Nat) → Context → Tracer (List Stmt × Context)
  | 0, _ => exhausted
  | fuel + 1, c => do
    if (← at? .rightBrace) || (← atEnd) then
      consume .rightBrace "to close the block"
      return ([], c)
    else
      let s ← within .round (stmt fuel c)
      let ss ← stmts fuel s.2
      return (s.1 :: ss.1, ss.2)

end

/-- Traces `readAll`, the rounds over the statements of a program. -/
def all : (fuel : Nat) → Context → Tracer (List Stmt × Context)
  | 0, _ => exhausted
  | fuel + 1, c => do
    if ← atEnd then return ([], c)
    else
      let s ← within .round (stmt fuel c)
      let ss ← all fuel s.2
      return (s.1 :: ss.1, ss.2)

/-! ### The readers that are traced -/

@[simp]
theorem erase_pure (a : α) : (pure a : Tracer α).erase = pure a :=
  rfl

/-- Tracers are erased one after the other. -/
@[simp]
theorem erase_bind (x : Tracer α) (f : α → Tracer β) :
    (x >>= f).erase = x.erase >>= fun a ↦ (f a).erase :=
  funext fun ts ↦ (x ts).outcome_andThen f

@[simp]
theorem erase_liftM (r : Reader α) : (liftM r : Tracer α).erase = r := by
  funext ts
  change (step r ts).outcome = r ts
  rw [step]
  rcases r ts with e | ⟨a, rest⟩ <;> rfl

/-- A log leaves no mark on the reader. -/
@[simp]
theorem erase_within (p : Production) (x : Tracer α) : (within p x).erase = x.erase :=
  rfl

@[simp]
theorem erase_ite (p : Prop) [Decidable p] (x y : Tracer α) :
    (if p then x else y).erase = if p then x.erase else y.erase :=
  apply_ite erase p x y

/-- What follows both branches is read in each. -/
theorem ite_bind (p : Prop) [Decidable p] (x y : Reader α) (f : α → Reader β) :
    (if p then x else y) >>= f = if p then x >>= f else y >>= f :=
  apply_ite (· >>= f) p x y

/-- The readers of expressions are traced, with some fuel. -/
structure TracesExprs (fuel : Nat) : Prop where
  level : ∀ n, (level fuel n).erase = readLevel fuel n
  more : ∀ n e, (more fuel n e).erase = readMore fuel n e
  unary : (unary fuel).erase = readUnary fuel
  items : ∀ e, (items fuel e).erase = readItems fuel e
  primary : (primary fuel).erase = readPrimary fuel
  arguments : ∀ close, (arguments fuel close).erase = readArgs fuel close
  moreArguments : (moreArguments fuel).erase = readMoreArgs fuel

/-- The readers of expressions are traced. -/
theorem tracesExprs (fuel : Nat) : TracesExprs fuel := by
  -- Every reader calls the others with one less of fuel.
  induction fuel with
  | zero =>
    constructor <;> intros <;>
      simp only [level, more, unary, items, primary, arguments, moreArguments, erase_liftM,
        readLevel, readMore, readUnary, readItems, readPrimary, readArgs, readMoreArgs]
  | succ fuel ih =>
    constructor
    case level =>
      intro n
      simp only [level, erase_within, erase_ite, erase_bind, ih.level, ih.more, ih.unary]
      rw [readLevel]
    case more =>
      intro n e
      rw [more, readMore, erase_bind, erase_liftM]
      congr
      funext o
      cases o with
      | none => rfl
      | some op => simp only [erase_bind, erase_within, ih.level, ih.more]
    case unary =>
      simp only [unary, erase_within, erase_bind, erase_liftM, erase_ite, erase_pure, ih.unary,
        ih.primary, ih.items]
      rw [readUnary]
    case items =>
      intro e
      simp only [items, erase_within, erase_bind, erase_liftM, erase_ite, erase_pure, ih.level,
        ih.items, bind_assoc, ite_bind, pure_bind]
      rw [readItems]
    case primary =>
      rw [primary, readPrimary, erase_within, erase_bind, erase_liftM]
      congr
      funext k
      split <;> simp only [erase_bind, erase_liftM, erase_pure, erase_ite, ih.level, ih.arguments]
    case arguments =>
      intro close
      simp only [arguments, erase_within, erase_bind, erase_liftM, erase_ite, erase_pure, ih.level,
        ih.moreArguments]
      rw [readArgs]
    case moreArguments =>
      simp only [moreArguments, erase_within, erase_bind, erase_liftM, erase_ite, erase_pure,
        ih.level, ih.moreArguments]
      rw [readMoreArgs]

theorem erase_expr (fuel : Nat) : (expr fuel).erase = readExpr fuel :=
  (tracesExprs fuel).level 0

theorem erase_initial (fuel : Nat) (isNull : Bool) (type : Tag) :
    (initial fuel isNull type).erase = readInit fuel isNull type := by
  simp only [initial, erase_ite, erase_bind, erase_liftM, erase_pure, erase_expr]
  rfl

theorem erase_condition (fuel : Nat) (context : String) :
    (condition fuel context).erase = readCondition fuel context := by
  simp only [condition, erase_bind, erase_liftM, erase_pure, erase_expr]
  rfl

theorem erase_params (fuel : Nat) (before : List String) :
    (params fuel before).erase = readParams fuel before := by
  induction fuel generalizing before with
  | zero => rw [params, erase_liftM, readParams]
  | succ fuel ih =>
    simp only [params, erase_within, erase_bind, erase_liftM, erase_pure, erase_ite, ih, bind_assoc,
      ite_bind, pure_bind]
    rw [readParams]
    rfl

theorem erase_paramList (fuel : Nat) : (paramList fuel).erase = readParamList fuel := by
  simp only [paramList, erase_bind, erase_liftM, erase_pure, erase_ite, erase_params]
  rfl

theorem erase_head (fuel : Nat) (c : Context) : (head fuel c).erase = readHead fuel c := by
  simp only [head, erase_bind, erase_liftM, erase_pure, erase_ite, erase_paramList]
  rfl

/-- The readers of statements are traced, with some fuel. -/
structure TracesStmts (fuel : Nat) : Prop where
  stmt : ∀ c, (stmt fuel c).erase = readStmt fuel c
  branches : ∀ c, (branches fuel c).erase = readIf fuel c
  block : ∀ c, (block fuel c).erase = readBlock fuel c
  stmts : ∀ c, (stmts fuel c).erase = readBody fuel c

theorem tracesStmts (fuel : Nat) : TracesStmts fuel := by
  induction fuel with
  | zero =>
    constructor <;> intros <;>
      simp only [stmt, branches, block, stmts, erase_liftM, readStmt, readIf, readBlock, readBody]
  | succ fuel ih =>
    constructor
    case stmt =>
      intro c
      rw [stmt, readStmt, erase_within, erase_bind, erase_liftM]
      congr
      funext form
      cases form <;>
        simp only [declare, breakLoop, continueLoop, giveBack, exit, unset, uses, stepBy, assign,
          assignAt, eval, erase_bind, erase_liftM, erase_pure, erase_ite, erase_within, erase_expr,
          erase_initial, erase_condition, erase_head, ih.branches, ih.block, ih.stmts] <;> rfl
    case branches =>
      intro c
      simp only [branches, erase_within, erase_bind, erase_liftM, erase_pure, erase_ite,
        erase_condition, ih.branches, ih.block, bind_assoc, pure_bind]
      rw [readIf]
    case block =>
      intro c
      simp only [block, erase_within, erase_bind, erase_liftM, erase_pure, ih.stmts]
      rw [readBlock]
    case stmts =>
      intro c
      simp only [stmts, erase_within, erase_bind, erase_liftM, erase_pure, erase_ite, ih.stmt,
        ih.stmts]
      rw [readBody]

theorem erase_stmt (fuel : Nat) (c : Context) : (stmt fuel c).erase = readStmt fuel c :=
  (tracesStmts fuel).stmt c

theorem erase_all (fuel : Nat) (c : Context) : (all fuel c).erase = readAll fuel c := by
  induction fuel generalizing c with
  | zero => rw [all, erase_liftM, readAll]
  | succ fuel ih =>
    simp only [all, erase_within, erase_bind, erase_liftM, erase_pure, erase_ite, erase_stmt, ih]
    rw [readAll]

end Tracer

end Scriptlet
