import Scriptlet.Token.Scan
import Scriptlet.Value

/-!
# Complaints about a program

Everything that can be wrong with a source text, as causes. There are three classes: the text does
not follow the grammar, a literal does not fit a declared type, or the program is not built as it
must be. A complaint is a cause with the stretch of text it concerns.
-/

namespace Scriptlet

/-- What the grammar asks for at some place. -/
inductive Expected where
  | symbol (s : Symbol) (context : String)
  | name (context : String)
  | expression
  | moduleName
deriving Repr, DecidableEq

/-- How an expectation is put in a message. -/
def Expected.text : Expected → String
  | symbol s context => s!"expected '{s.text}' {context}"
  | name context => s!"expected identifier {context}"
  | expression => "expected expression"
  | moduleName => "expected module name after 'import'"

/-- What is wrong with a program. -/
inductive Cause where
  /-- The text has no tokens. -/
  | scan (e : ScanError)
  /-- Another token was expected than the one found. -/
  | expected (what : Expected) (found : String)
  /-- A literal does not fit the type of the variable it initialises. -/
  | literal (declared found : Tag)
  | alreadyDeclared (name : String)
  | constant (name : String)
  | outsideLoop (keyword : Keyword)
  | tooFewLoops (keyword : Keyword) (depth loops : Nat)
  | functionDefined (name : String)
  | duplicateParam (name : String)
  | valueAtTop
  | valueFromVoid
  | bareReturn
  /-- A declaration with no block open around it. -/
  | outsideBlocks
  /-- A jump to a label that was never bound. -/
  | unplaced (l : Nat)
  /-- The reader was given too little fuel. -/
  | outOfFuel
  /-- The image would not fit 64-bit offsets. -/
  | tooLarge
deriving Repr, DecidableEq

/-- The three classes of causes. -/
inductive CauseClass where
  | grammar | typing | structural
deriving Repr, DecidableEq

namespace Cause

/-- The class of a cause. -/
def kind : Cause → CauseClass
  | scan _ | expected _ _ => .grammar
  | literal _ _ => .typing
  | _ => .structural

/-- The text of a cause. -/
def text : Cause → String
  | scan e => e.message
  | expected what found => s!"{what.text}, found '{found}'"
  | literal declared found =>
    s!"cannot initialize a {declared.text} variable with a {found.text} literal"
  | alreadyDeclared name => s!"'{name}' is already declared in this scope"
  | constant name => s!"cannot modify constant '{name}'"
  | outsideLoop keyword => s!"'{keyword.text}' outside of a loop"
  | tooFewLoops keyword depth loops =>
    s!"'{keyword.text} {depth}' but only {loops} enclosing loop(s)"
  | functionDefined name => s!"function '{name}' is already defined"
  | duplicateParam name => s!"duplicate parameter '{name}'"
  | valueAtTop => "cannot return a value from top-level code"
  | valueFromVoid => "cannot return a value from a void function"
  | bareReturn => "bare 'return' in a function that returns a value"
  | outsideBlocks => "declaration outside any scope"
  | unplaced l => s!"jump target Label({l}) was never placed"
  | outOfFuel => "the text is nested too deeply"
  | tooLarge => "the program is too large"

end Cause

/-- A cause with the stretch of text it concerns. -/
structure Complaint where
  cause : Cause
  span : Span
deriving Repr, DecidableEq

namespace Complaint

/-- The text of a complaint. -/
def message (c : Complaint) : String :=
  match c.cause.kind with
  | .grammar => s!"Syntax error: {c.cause.text} at {c.span.text}"
  | .typing => s!"Type error: {c.cause.text} at {c.span.text}"
  | .structural => s!"Structural error: {c.cause.text} at {c.span.text}"

/-- The complaint about a text without tokens. -/
def ofScan (e : ScanError) : Complaint :=
  ⟨.scan e, e.span⟩

end Complaint

end Scriptlet
