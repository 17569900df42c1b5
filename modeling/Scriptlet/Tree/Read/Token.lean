import Scriptlet.Tree.Complaint

/-!
# Reading single tokens

A reader takes tokens from the front and stops at the first thing that is wrong. The readers here
look at one token at most; at the end of the text there is none, and a fault is placed at the empty
span that stands for the end.
-/

namespace Scriptlet

/-- A reader of tokens. -/
abbrev Reader := StateT Tokens (Except Complaint)

namespace Reader

/-- Fails with a cause at a stretch of text. -/
def fail {α : Type} (cause : Cause) (span : Span) : Reader α :=
  fun _ ↦ .error ⟨cause, span⟩

/-- Fails if a check did. -/
def check {α : Type} (result : Except Cause α) (span : Span) : Reader α :=
  match result with
  | .ok a => pure a
  | .error cause => fail cause span

/-- Fails because the next token, or the end of the text, is not what the grammar asks for. -/
def unexpected {α : Type} (what : Expected) : Reader α :=
  fun ts ↦ match ts.ahead with
    | [] => .error ⟨.expected what "end of file", ts.stop⟩
    | t :: _ => .error ⟨.expected what t.kind.text, t.span⟩

/-- The kind of the next token. -/
def peek? : Reader (Option Kind) :=
  fun ts ↦ .ok (ts.ahead.head?.map (·.kind), ts)

/-- Takes one token and gives its span. -/
def advance : Reader Span :=
  fun ts ↦ match ts.ahead with
    | [] => .ok (ts.stop, ts)
    | t :: rest => .ok (t.span, { ts with ahead := rest })

/-- The tokens ahead start with a symbol. -/
def startsWith (s : Symbol) : List Token → Bool
  | ⟨.symbol s', _⟩ :: _ => s' = s
  | _ => false

/-- The next token is a symbol. -/
def at? (s : Symbol) : Reader Bool :=
  fun ts ↦ .ok (startsWith s ts.ahead, ts)

/-- The end of the text is next. -/
def atEnd : Reader Bool :=
  fun ts ↦ .ok (ts.ahead.isEmpty, ts)

/-- Takes a symbol if it is next. -/
def accept (s : Symbol) : Reader Bool :=
  fun ts ↦
    if startsWith s ts.ahead then .ok (true, { ts with ahead := ts.ahead.tail })
    else .ok (false, ts)

/-- Takes a keyword if it is next. -/
def acceptKeyword (k : Keyword) : Reader Bool :=
  fun ts ↦ match ts.ahead with
    | ⟨.keyword k', _⟩ :: rest =>
      if k' = k then .ok (true, { ts with ahead := rest }) else .ok (false, ts)
    | _ => .ok (false, ts)

/-- Takes a symbol, which must be next. -/
def consume (s : Symbol) (context : String) : Reader Unit := do
  if ← accept s then return () else unexpected (.symbol s context)

/-- Takes a name, which must be next, and gives its span with it. -/
def consumeName (context : String) : Reader (String × Span) :=
  fun ts ↦ match ts.ahead with
    | ⟨.name s, span⟩ :: rest => .ok ((s, span), { ts with ahead := rest })
    | _ => unexpected (.name context) ts

/-- The type that a keyword names. -/
def typeOfKeyword? : Keyword → Option Tag
  | .int => some .int
  | .float => some .float
  | .bool => some .bool
  | .str => some .str
  | .list => some .list
  | .auto => some .auto
  | _ => none

/-- Takes the name of a type if it is next. -/
def acceptType? : Reader (Option Tag) :=
  fun ts ↦ match ts.ahead with
    | ⟨.keyword k, _⟩ :: rest =>
      match typeOfKeyword? k with
      | some t => .ok (some t, { ts with ahead := rest })
      | none => .ok (none, ts)
    | _ => .ok (none, ts)

/-- Fails for lack of fuel. -/
def exhausted {α : Type} : Reader α :=
  fun ts ↦ .error ⟨.outOfFuel, ts.stop⟩

end Reader

end Scriptlet
