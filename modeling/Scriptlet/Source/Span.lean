/-!
# Places in a source text

A position counts three things at once: bytes of the UTF-8 text, lines and columns, the last two
from one. It is always **the position after** a run of characters, so no reader keeps counters of
its own. A span is a stretch of bytes with the line and column of its first character.
-/

namespace Scriptlet

/-- A place between two characters of a source text. -/
structure Position where
  /-- Bytes before the place. -/
  offset : Nat
  line : Nat
  /-- Characters since the last line feed, plus one. -/
  column : Nat
deriving Repr, DecidableEq, Inhabited

namespace Position

/-- The place before the first character. -/
def start : Position := ⟨0, 1, 1⟩

/-- The place after one more character. Only a line feed ends a line. -/
def next (p : Position) (c : Char) : Position :=
  if c = '\n' then ⟨p.offset + c.utf8Size, p.line + 1, 1⟩
  else ⟨p.offset + c.utf8Size, p.line, p.column + 1⟩

/-- The place after a run of characters. -/
def after (p : Position) (cs : List Char) : Position :=
  cs.foldl next p

end Position

/-- A stretch of a source text, by its bytes, with the line and column where it starts. -/
structure Span where
  start : Nat
  stop : Nat
  line : Nat
  column : Nat
deriving Repr, DecidableEq, Inhabited

namespace Span

/-- The stretch between two places. -/
def between (p q : Position) : Span :=
  ⟨p.offset, q.offset, p.line, p.column⟩

/-- How a span is named in a message. -/
def text (s : Span) : String :=
  s!"line {s.line}, column {s.column}"

end Span

end Scriptlet
