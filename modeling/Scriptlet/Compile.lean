import Scriptlet.Tree.Emit
import Scriptlet.Tree.Read

/-!
# Compiling

From a source text to an image: scan, read, emit, assemble. The first fault ends it, and nothing is
produced then. An image that its 64-bit offsets could not address is refused.
-/

namespace Scriptlet

/-- The image of a program. The span is that of the end of its text. -/
def Program.assemble (p : Program) (stop : Span) : Except Complaint Image :=
  let d := p.draft
  match Image.assemble d.buffer d.functions.toList with
  | .error l => .error ⟨.unplaced l.id, stop⟩
  | .ok image => if image.bytes.size < UInt64.size then .ok image else .error ⟨.tooLarge, stop⟩

/-- The image of a program in tokens. -/
def compileTokens (ts : Tokens) : Except Complaint Image := do
  let p ← Program.ofTokens ts
  p.assemble ts.stop

/-- The image of a source text. -/
def compile (source : String) : Except Complaint Image := do
  let ts ← (Tokens.ofText source).mapError .ofScan
  compileTokens ts

end Scriptlet
