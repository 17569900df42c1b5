import Scriptlet.Decimal.Layout
import Scriptlet.Source.Span

/-!
# Tokens

A token is a kind with the span it was read from. Kinds are literals, names, keywords and symbols;
`true` and `false` are literals and no keywords. The end of the text is not a token: a token list
carries the empty span at the end of the text beside it, so that a reader never steps past the end.
-/

namespace Scriptlet

/-- The reserved words, the two truth values apart. -/
inductive Keyword where
  | let_ | func | tail | return_ | if_ | elif | else_ | while_ | break_ | continue_
  | exit | del | null | import_
  | const | static | inline
  | int | float | bool | str | list | auto | void
deriving Repr, DecidableEq

namespace Keyword

/-- The word itself. -/
def text : Keyword → String
  | let_ => "let" | func => "func" | tail => "tail" | return_ => "return"
  | if_ => "if" | elif => "elif" | else_ => "else" | while_ => "while"
  | break_ => "break" | continue_ => "continue" | exit => "exit" | del => "del"
  | null => "null" | import_ => "import"
  | const => "const" | static => "static" | inline => "inline"
  | int => "int" | float => "float" | bool => "bool" | str => "str" | list => "list"
  | auto => "auto" | void => "void"

/-- Every keyword once. -/
def all : List Keyword :=
  [let_, func, tail, return_, if_, elif, else_, while_, break_, continue_, exit, del, null, import_,
   const, static, inline, int, float, bool, str, list, auto, void]

/-- The keyword that a word is, if it is one. -/
def ofText? (word : String) : Option Keyword :=
  all.find? fun k ↦ k.text == word

end Keyword

/-- Operators and delimiters. -/
inductive Symbol where
  | plus | minus | star | slash
  | equal | equalEqual | bangEqual | less | lessEqual | greater | greaterEqual
  | bang | and | or
  | leftParen | rightParen | leftBrace | rightBrace | leftBracket | rightBracket
  | comma | colon | semicolon
deriving Repr, DecidableEq

/-- The symbol as it is written. -/
def Symbol.text : Symbol → String
  | plus => "+" | minus => "-" | star => "*" | slash => "/"
  | equal => "=" | equalEqual => "==" | bangEqual => "!="
  | less => "<" | lessEqual => "<=" | greater => ">" | greaterEqual => ">="
  | bang => "!" | and => "&&" | or => "||"
  | leftParen => "(" | rightParen => ")" | leftBrace => "\x7b" | rightBrace => "\x7d"
  | leftBracket => "[" | rightBracket => "]"
  | comma => "," | colon => ":" | semicolon => ";"

/-- What a token is. A name may hold dots, as in `Screen.clear`. -/
inductive Kind where
  | int (n : Int64)
  | float (x : Float)
  | str (s : String)
  | bool (b : Bool)
  | name (s : String)
  | keyword (k : Keyword)
  | symbol (s : Symbol)
deriving Repr, DecidableEq

/-- How a kind is named in a message: a literal by its value, a string between double quotes and
**without** escapes, anything else as it is written. -/
def Kind.text : Kind → String
  | .int n => toString n.toInt
  | .float x => Decimal.bareText x
  | .str s => "\"" ++ s ++ "\""
  | .bool b => if b then "true" else "false"
  | .name s => s
  | .keyword k => k.text
  | .symbol s => s.text

/-- A kind with the stretch of text it was read from. -/
structure Token where
  kind : Kind
  span : Span
deriving Repr

/-- The tokens ahead of a reader, and the empty span at the end of the text. -/
structure Tokens where
  ahead : List Token
  stop : Span
deriving Repr

end Scriptlet
