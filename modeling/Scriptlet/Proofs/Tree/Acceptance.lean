import Scriptlet.Compile
import Scriptlet.Proofs.Tree.Unambiguous

/-!
# The grammar is what is accepted

Tokens that compile spell a program. The other way around, no complaint about the grammar is ever
made of tokens that spell one: they compile, or a check on names, literals, loops or functions stops
them. Such a check may well come first in tokens that do not spell a program, so nothing is said
about the complaints of those.
-/

namespace Scriptlet

variable {ts : Tokens} {p : Program}

/-- What stops the assembly of a program is neither its grammar nor a lack of fuel. -/
theorem Program.isCheck_of_assemble {stop : Span} {complaint : Complaint}
    (h : p.assemble stop = .error complaint) : complaint.cause.IsCheck := by
  simp only [Program.assemble] at h
  split at h
  · cases h
    exact ⟨by simp [Cause.kind], by simp⟩
  · split at h <;> cases h
    exact ⟨by simp [Cause.kind], by simp⟩

/-- A program that follows the grammar is refused by a check only. -/
theorem Program.Spelled.isCheck_of_compileTokens {complaint : Complaint} (h : p.Spelled ts.kinds)
    (herror : compileTokens ts = .error complaint) : complaint.cause.IsCheck := by
  rw [compileTokens] at herror
  rcases hread : Program.ofTokens ts with e | q
  · rw [hread] at herror
    cases herror
    obtain ⟨Q, ⟨-, hsettles⟩, -, -⟩ := h.exists_settled
    exact Program.isCheck_of_settles hsettles hread
  · rw [hread] at herror
    exact Program.isCheck_of_assemble herror

/-- What is compiled follows the grammar. -/
theorem exists_spelled_of_compileTokens {image : Image} (h : compileTokens ts = .ok image) :
    ∃ p : Program, p.Spelled ts.kinds := by
  rw [compileTokens] at h
  rcases hread : Program.ofTokens ts with e | p
  · rw [hread] at h
    cases h
  · exact ⟨p, (Program.spelled_and_valid_of_ofTokens hread).1⟩

/-- **The grammar is what is accepted.** Tokens that compile spell a program, and tokens that spell
a program are never complained of as being against the grammar, or for lack of fuel. -/
theorem spelled_of_compileTokens_and_kind_ne_grammar_of_spelled (ts : Tokens) :
    (∀ image, compileTokens ts = .ok image → ∃ p : Program, p.Spelled ts.kinds) ∧
    ∀ p : Program, p.Spelled ts.kinds → ∀ complaint, compileTokens ts = .error complaint →
      complaint.cause.kind ≠ .grammar ∧ complaint.cause ≠ .outOfFuel := by
  refine ⟨fun image ↦ exists_spelled_of_compileTokens, fun p hp complaint h ↦ ?_⟩
  have hcheck := hp.isCheck_of_compileTokens h
  exact ⟨hcheck.kind_ne, hcheck.ne_outOfFuel⟩

/-- The tokens of `func f(a, b) { ++a; break 2; }`, which follow the grammar. -/
def strayBreak : Tokens :=
  ⟨[.keyword .func, .name "f", .symbol .leftParen, .name "a", .symbol .comma, .name "b",
    .symbol .rightParen, .symbol .leftBrace, .symbol .plus, .symbol .plus, .name "a",
    .symbol .semicolon, .keyword .break_, .int 2, .symbol .semicolon,
    .symbol .rightBrace].map (⟨·, default⟩), default⟩

/-- The tokens of `++a;`. -/
def singleStep : Tokens :=
  ⟨[.symbol .plus, .symbol .plus, .name "a", .symbol .semicolon].map (⟨·, default⟩), default⟩

/-- The first program follows the grammar and is refused; the second one is compiled. -/
theorem strayBreak_follows_grammar_and_singleStep_compiles :
    ((∃ p : Program, p.Spelled strayBreak.kinds) ∧
      ∃ complaint, compileTokens strayBreak = .error complaint ∧ complaint.cause.kind ≠ .grammar) ∧
    (∃ image, compileTokens singleStep = .ok image) ∧ ∃ p : Program, p.Spelled singleStep.kinds := by
  have hbody : Clause.Spelled (.stmts [.step .add "a", .breakLoop 2]) _ :=
    .cons .increment (.cons (.breakLoop 2) .nil)
  have hspelled : Program.Spelled [.function ⟨"f", false, .any, ["a", "b"]⟩ _] strayBreak.kinds :=
    .cons (@Clause.Spelled.function false ⟨"f", false, .any, ["a", "b"]⟩ _ _ _ .omitted hbody) .nil
  have herror : compileTokens strayBreak = .error ⟨.outsideLoop .break_, default⟩ := by
    decide +kernel
  have hok : (compileTokens singleStep).isOk = true := by decide +kernel
  rcases himage : compileTokens singleStep with e | image
  · rw [himage] at hok
    cases hok
  · refine ⟨⟨⟨_, hspelled⟩, _, herror, ?_⟩, ⟨image, rfl⟩, ?_⟩
    · exact ((spelled_of_compileTokens_and_kind_ne_grammar_of_spelled strayBreak).2 _ hspelled _
        herror).1
    · exact (spelled_of_compileTokens_and_kind_ne_grammar_of_spelled singleStep).1 image himage

end Scriptlet
