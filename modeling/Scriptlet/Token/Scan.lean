import Scriptlet.Decimal.Read
import Scriptlet.Text.Alphabetic
import Scriptlet.Text.Numeric
import Scriptlet.Token

/-!
# From text to tokens

Scanning alternates two steps on the characters that are left. `skip` passes over what separates
tokens: blanks, line comments, and block comments, which nest. `lexeme` takes the longest token that
starts at a given character, and **returns the characters it took**. Positions are computed from
those alone, so line and column cannot drift from the text.

A fault names its cause and the stretch read up to the point where it was seen: an unknown escape
stops after its backslash, an open string before the end of its line.
-/

namespace Scriptlet

/-- Why a text has no tokens. -/
inductive ScanCause where
  | unexpectedChar (c : Char)
  | unterminatedString
  | unterminatedComment
  | invalidEscape (c : Char)
  | invalidNumber (text : String)
deriving Repr, DecidableEq

/-- A cause with the stretch of text it concerns. -/
structure ScanError where
  cause : ScanCause
  span : Span
deriving Repr, DecidableEq

/-- The text of a scanning fault. -/
def ScanError.message (e : ScanError) : String :=
  match e.cause with
  | .unexpectedChar c => s!"Unexpected character '{c}' at {e.span.text}"
  | .unterminatedString => s!"Unterminated string at {e.span.text}"
  | .unterminatedComment => s!"Unterminated block comment at {e.span.text}"
  | .invalidEscape c => s!"Invalid escape sequence '\\{c}' at {e.span.text}"
  | .invalidNumber text => s!"Invalid number '{text}' at {e.span.text}"

namespace Scan

/-! ### What separates tokens -/

/-- The blanks between tokens. Line feeds are among them; other white space is not. -/
def isSpace (c : Char) : Bool :=
  c == ' ' || c == '\t' || c == '\r' || c == '\n'

/-- Where a reader stands between two tokens: in the open, in a line comment, or in a block comment
that was opened at `opened` and has `depth` comments around it. -/
inductive Gap where
  | open_
  | line
  | block (opened : Position) (depth : Nat)

/-- Passes over a gap. A line comment ends with its line, a block comment with the `*/` that matches
its `/*`; only an open block comment can fail. -/
def skip : Gap → List Char → Position → Except ScanError (List Char × Position)
  | .open_, [], p => .ok ([], p)
  | .open_, c :: cs, p =>
    if isSpace c then skip .open_ cs (p.next c)
    else if c = '/' then
      match cs with
      | '/' :: ds => skip .line ds (p.after ['/', '/'])
      | '*' :: ds => skip (.block p 0) ds (p.after ['/', '*'])
      | _ => .ok (c :: cs, p)
    else .ok (c :: cs, p)
  | .line, [], p => .ok ([], p)
  | .line, c :: cs, p => skip (if c = '\n' then .open_ else .line) cs (p.next c)
  | .block opened _, [], p => .error ⟨.unterminatedComment, .between opened p⟩
  | .block opened depth, [c], p => skip (.block opened depth) [] (p.next c)
  | .block opened depth, c :: d :: cs, p =>
    if c = '*' ∧ d = '/' then
      match depth with
      | 0 => skip .open_ cs (p.after [c, d])
      | depth + 1 => skip (.block opened depth) cs (p.after [c, d])
    else if c = '/' ∧ d = '*' then skip (.block opened (depth + 1)) cs (p.after [c, d])
    else skip (.block opened depth) (d :: cs) (p.next c)

/-! ### One token -/

/-- A token at the head of a text: its kind, its characters, and the characters after it. -/
structure Lexeme where
  kind : Kind
  text : List Char
  rest : List Char

/-- A fault at the head of a text, with the characters read up to it. -/
structure Refusal where
  cause : ScanCause
  text : List Char

/-- The symbol of one character. The characters `&` and `|` are none by themselves. -/
def lone? : Char → Option Symbol
  | '(' => some .leftParen
  | ')' => some .rightParen
  | '{' => some .leftBrace
  | '}' => some .rightBrace
  | '[' => some .leftBracket
  | ']' => some .rightBracket
  | ',' => some .comma
  | ':' => some .colon
  | ';' => some .semicolon
  | '+' => some .plus
  | '-' => some .minus
  | '*' => some .star
  | '/' => some .slash
  | '=' => some .equal
  | '!' => some .bang
  | '<' => some .less
  | '>' => some .greater
  | _ => none

/-- The symbol of two characters. -/
def paired? : Char → Char → Option Symbol
  | '=', '=' => some .equalEqual
  | '!', '=' => some .bangEqual
  | '<', '=' => some .lessEqual
  | '>', '=' => some .greaterEqual
  | '&', '&' => some .and
  | '|', '|' => some .or
  | _, _ => none

/-- The symbol that starts with a given character; a symbol of two characters is taken where it
fits. -/
def symbol? (c : Char) (cs : List Char) : Option Lexeme :=
  match cs with
  | [] => (lone? c).map fun s ↦ ⟨.symbol s, [c], cs⟩
  | d :: ds =>
    match paired? c d with
    | some s => some ⟨.symbol s, [c, d], ds⟩
    | none => (lone? c).map fun s ↦ ⟨.symbol s, [c], cs⟩

/-- The character that an escape stands for. -/
def escape? : Char → Option Char
  | 'n' => some '\n'
  | 't' => some '\t'
  | 'r' => some '\r'
  | '0' => some '\x00'
  | '\\' => some '\\'
  | '"' => some '"'
  | '\'' => some '\''
  | _ => none

/-- The rest of a string literal: its value, its characters up to and with the closing quote, and
the characters after it. -/
structure StringRest where
  value : List Char
  text : List Char
  rest : List Char

/-- Reads a string literal after its opening quote. A raw line feed or the end of the text leaves it
open; a raw carriage return or tab is part of it. -/
def stringRest (quote : Char) : List Char → Except Refusal StringRest
  | [] => .error ⟨.unterminatedString, []⟩
  | c :: cs =>
    if c = '\n' then .error ⟨.unterminatedString, []⟩
    else if c = quote then .ok ⟨[], [c], cs⟩
    else if c = '\\' then
      match cs with
      | [] => .error ⟨.unterminatedString, [c]⟩
      | e :: ds =>
        match escape? e with
        | none => .error ⟨.invalidEscape e, [c]⟩
        | some v =>
          match stringRest quote ds with
          | .ok r => .ok ⟨v :: r.value, c :: e :: r.text, r.rest⟩
          | .error f => .error ⟨f.cause, c :: e :: f.text⟩
    else
      match stringRest quote cs with
      | .ok r => .ok ⟨c :: r.value, c :: r.text, r.rest⟩
      | .error f => .error ⟨f.cause, c :: f.text⟩

/-- The decimal places at the head of a text: a point and the digits after it, of which there is at
least one, and the characters after them. -/
def places? : List Char → Option (List Char × List Char)
  | '.' :: d :: ds =>
    if d.isDigit then some (d :: ds.takeWhile Char.isDigit, ds.dropWhile Char.isDigit) else none
  | _ => none

/-- A number: digits, then decimal places where there are any. A whole number beyond 64 signed bits
is refused. -/
def number (c : Char) (cs : List Char) : Except Refusal Lexeme :=
  let whole := c :: cs.takeWhile Char.isDigit
  match places? (cs.dropWhile Char.isDigit) with
  | some (places, rest) =>
    .ok ⟨.float (Decimal.toFloat (Decimal.digitsValue (whole ++ places)) (-(places.length : Int))),
      whole ++ '.' :: places, rest⟩
  | none =>
    if (Decimal.digitsValue whole : Int) ≤ Int64.maxValue.toInt then
      .ok ⟨.int (.ofNat (Decimal.digitsValue whole)), whole, cs.dropWhile Char.isDigit⟩
    else .error ⟨.invalidNumber (String.ofList whole), whole⟩

/-- A name or a keyword starts with such a character. -/
def isNameStart (c : Char) : Bool :=
  Text.isAlphabetic c || c == '_'

/-- A name or a keyword goes on with such a character. -/
def isNameRest (c : Char) : Bool :=
  Text.isAlphabetic c || Text.isNumeric c || c == '_' || c == '.'

/-- What a word is: a truth value, a keyword, or else a name. -/
def wordKind (word : String) : Kind :=
  if word == "true" then .bool true
  else if word == "false" then .bool false
  else match Keyword.ofText? word with
    | some k => .keyword k
    | none => .name word

/-- The longest token that starts with a given character. -/
def lexeme (c : Char) (cs : List Char) : Except Refusal Lexeme :=
  match symbol? c cs with
  | some l => .ok l
  | none =>
    if c = '"' || c = '\'' then
      match stringRest c cs with
      | .ok r => .ok ⟨.str (String.ofList r.value), c :: r.text, r.rest⟩
      | .error f => .error ⟨f.cause, c :: f.text⟩
    else if c.isDigit then number c cs
    else if isNameStart c then
      let text := c :: cs.takeWhile isNameRest
      .ok ⟨wordKind (String.ofList text), text, cs.dropWhile isNameRest⟩
    else .error ⟨.unexpectedChar c, [c]⟩

/-! ### Every step shortens the text -/

theorem length_skip_le {gap : Gap} {cs rest : List Char} {p q : Position}
    (h : skip gap cs p = .ok (rest, q)) : rest.length ≤ cs.length := by
  fun_induction skip gap cs p <;> grind

theorem length_symbol?_lt {c : Char} {cs : List Char} {l : Lexeme}
    (h : symbol? c cs = some l) : l.rest.length < (c :: cs).length := by
  unfold symbol? at h
  split at h
  · obtain ⟨_, _, rfl⟩ := Option.map_eq_some_iff.1 h
    simp
  · split at h
    · cases h
      simp only [List.length_cons]
      omega
    · obtain ⟨_, _, rfl⟩ := Option.map_eq_some_iff.1 h
      simp

theorem length_stringRest_lt {quote : Char} {cs : List Char} {r : StringRest}
    (h : stringRest quote cs = .ok r) : r.rest.length < cs.length := by
  fun_induction stringRest quote cs generalizing r <;> simp_all <;> grind

theorem length_dropWhile_le (f : Char → Bool) (cs : List Char) :
    (cs.dropWhile f).length ≤ cs.length :=
  (List.dropWhile_sublist f).length_le

theorem length_places?_le {cs places rest : List Char}
    (h : places? cs = some (places, rest)) : rest.length ≤ cs.length := by
  unfold places? at h
  split at h
  · next d ds =>
    have := length_dropWhile_le Char.isDigit ds
    grind
  · cases h

theorem length_number_lt {c : Char} {cs : List Char} {l : Lexeme}
    (h : number c cs = .ok l) : l.rest.length < (c :: cs).length := by
  have hd := length_dropWhile_le Char.isDigit cs
  unfold number at h
  split at h
  · next hp =>
    have := length_places?_le hp
    grind
  · grind

theorem length_lexeme_lt {c : Char} {cs : List Char} {l : Lexeme}
    (h : lexeme c cs = .ok l) : l.rest.length < (c :: cs).length := by
  have hd := length_dropWhile_le isNameRest cs
  unfold lexeme at h
  split at h
  · next hs =>
    have := length_symbol?_lt hs
    grind
  · split at h
    · split at h
      · next r hr =>
        have := length_stringRest_lt hr
        grind
      · cases h
    · split at h
      · exact length_number_lt h
      · grind

/-! ### All tokens -/

/-- The tokens of the characters from a position on. -/
def tokensFrom (cs : List Char) (p : Position) : Except ScanError Tokens :=
  match hs : skip .open_ cs p with
  | .error e => .error e
  | .ok ([], q) => .ok ⟨[], .between q q⟩
  | .ok (c :: rest, q) =>
    match hl : lexeme c rest with
    | .error f => .error ⟨f.cause, .between q (q.after f.text)⟩
    | .ok l =>
      have : l.rest.length < cs.length := by
        have := length_skip_le hs
        have := length_lexeme_lt hl
        omega
      let stop := q.after l.text
      match tokensFrom l.rest stop with
      | .error e => .error e
      | .ok ts => .ok { ts with ahead := ⟨l.kind, .between q stop⟩ :: ts.ahead }
termination_by cs.length

end Scan

/-- The tokens of a source text, or the first fault in it. -/
def Tokens.ofText (source : String) : Except ScanError Tokens :=
  Scan.tokensFrom source.toList .start

end Scriptlet
