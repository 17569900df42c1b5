import Mathlib.Data.List.Basic
import Scriptlet.Token.Scan

/-!
# What stands between tokens

`Filler` is the grammar of gaps: blanks, line comments with the line feed that ends them, and block
comments that are balanced. A line comment may also end with the text, so the gap behind the last
token is a little richer than the others.

A block comment is balanced in the sense of reading from left to right: `/*` opens and `*/` closes
wherever they are met, and no character belongs to two of these. So `/*/` does not close itself, and
a character stands for itself only if it does not begin such a mark with the one behind it.

The reader counts open comments instead, and starts again after each mark. That it passes just over
such gaps is `exists_passes_of_skip` and, the other way around, `skip_filler`; where it fails, it
stands at the end of the text and names the comment from its first character on
(`faultsIn_of_skip`).
-/

namespace Scriptlet

theorem Position.after_append (p : Position) (cs ds : List Char) :
    p.after (cs ++ ds) = (p.after cs).after ds :=
  List.foldl_append

theorem Position.after_cons (p : Position) (c : Char) (cs : List Char) :
    p.after (c :: cs) = (p.next c).after cs :=
  rfl

namespace Scan

/-! ### The grammar of gaps -/

/-- A character and what follows it begin with `/*` or with `*/`. -/
def Marks (c : Char) (cs : List Char) : Prop :=
  c = '/' ∧ cs.head? = some '*' ∨ c = '*' ∧ cs.head? = some '/'

/-- What stands between `/*` and the `*/` that closes it. -/
inductive CommentBody : List Char → Prop where
  | nil : CommentBody []
  | char {c : Char} {cs : List Char} (hc : ¬ Marks c (cs ++ ['*', '/'])) (h : CommentBody cs) :
      CommentBody (c :: cs)
  | nested {inner cs : List Char} (hinner : CommentBody inner) (h : CommentBody cs) :
      CommentBody ('/' :: '*' :: inner ++ '*' :: '/' :: cs)

/-- What may stand before a token, or at the end of a text. -/
inductive Filler (atEnd : Bool) : List Char → Prop where
  | nil : Filler atEnd []
  | blank {c : Char} {cs : List Char} (hc : c ∈ [' ', '\t', '\r', '\n']) (h : Filler atEnd cs) :
      Filler atEnd (c :: cs)
  | line {body cs : List Char} (hbody : '\n' ∉ body) (h : Filler atEnd cs) :
      Filler atEnd ('/' :: '/' :: body ++ '\n' :: cs)
  | block {body cs : List Char} (hbody : CommentBody body) (h : Filler atEnd cs) :
      Filler atEnd ('/' :: '*' :: body ++ '*' :: '/' :: cs)
  | lastLine {body : List Char} (hend : atEnd = true) (hbody : '\n' ∉ body) :
      Filler atEnd ('/' :: '/' :: body)

/-! ### Gaps from the middle -/

/-- What closes a comment and so many around it. -/
inductive Closes : Nat → List Char → Prop where
  | last {body : List Char} (h : CommentBody body) : Closes 0 (body ++ ['*', '/'])
  | next {depth : Nat} {body cs : List Char} (h : CommentBody body) (hrest : Closes depth cs) :
      Closes (depth + 1) (body ++ '*' :: '/' :: cs)

/-- A gap from where a reader stands. -/
def Passes (atEnd : Bool) : Gap → List Char → Prop
  | .open_, gap => Filler atEnd gap
  | .line, gap =>
    (∃ body cs, gap = body ++ '\n' :: cs ∧ '\n' ∉ body ∧ Filler atEnd cs) ∨
      atEnd = true ∧ '\n' ∉ gap
  | .block _ depth, gap =>
    ∃ closing cs, gap = closing ++ cs ∧ Closes depth closing ∧ Filler atEnd cs

namespace Closes

variable {depth : Nat} {cs : List Char}

/-- The first body may be another one. -/
theorem exists_body (h : Closes depth cs) :
    ∃ body rest, cs = body ++ '*' :: '/' :: rest ∧ CommentBody body ∧
      ∀ body', CommentBody body' → Closes depth (body' ++ '*' :: '/' :: rest) := by
  cases h with
  | last hbody => exact ⟨_, [], rfl, hbody, fun _ h ↦ .last h⟩
  | next hbody hrest => exact ⟨_, _, rfl, hbody, fun _ h ↦ .next h hrest⟩

/-- It takes some characters to close a comment. -/
theorem ne_nil (h : Closes depth cs) : cs ≠ [] := by
  obtain ⟨body, rest, rfl, -, -⟩ := h.exists_body
  exact List.append_ne_nil_of_right_ne_nil _ (List.cons_ne_nil _ _)

/-- Behind the end of a comment the next outer one has to be closed. -/
theorem close (h : Closes depth cs) : Closes (depth + 1) ('*' :: '/' :: cs) :=
  .next .nil h

/-- A comment that is opened and closed is inside the one around it. -/
theorem nested (h : Closes (depth + 1) cs) : Closes depth ('/' :: '*' :: cs) := by
  cases h with
  | @next _ inner cs hinner hrest =>
    obtain ⟨body, rest, rfl, hbody, hany⟩ := hrest.exists_body
    have hnested := hany _ (.nested hinner hbody)
    simpa only [List.cons_append, List.append_assoc] using hnested

/-- Any character inside a comment may come before its end, if it begins no mark. -/
theorem char {c : Char} (h : Closes depth cs) (hc : ¬ Marks c cs) : Closes depth (c :: cs) := by
  obtain ⟨body, rest, rfl, hbody, hany⟩ := h.exists_body
  refine hany (c :: body) (.char ?_ hbody)
  -- What follows `c` begins alike, whether the body goes on or its end comes.
  rcases body with - | ⟨d, body⟩
  · exact hc
  · exact hc

end Closes

/-! ### Reading a gap -/

/-- There are four blanks. -/
theorem isSpace_iff (c : Char) : isSpace c ↔ c ∈ [' ', '\t', '\r', '\n'] := by
  simp [isSpace, or_assoc]

/-- **A gap is passed over to its end**, and the position behind it is that of its characters. -/
theorem exists_passes_of_skip {gap : Gap} {cs rest : List Char} {p q : Position}
    (h : skip gap cs p = .ok (rest, q)) :
    ∃ passed, cs = passed ++ rest ∧ q = p.after passed ∧ Passes rest.isEmpty gap passed := by
  fun_induction skip gap cs p with
  | case1 p =>
    cases h
    exact ⟨[], rfl, rfl, .nil⟩
  | case2 c cs p hspace ih =>
    obtain ⟨passed, rfl, rfl, hpasses⟩ := ih h
    exact ⟨c :: passed, rfl, rfl, .blank ((isSpace_iff c).1 hspace) hpasses⟩
  | case3 p ds hspace ih =>
    obtain ⟨passed, rfl, rfl, hpasses⟩ := ih h
    refine ⟨'/' :: '/' :: passed, rfl, rfl, ?_⟩
    rcases hpasses with ⟨body, cs, rfl, hbody, hcs⟩ | ⟨hend, hpassed⟩
    · exact .line hbody hcs
    · exact .lastLine hend hpassed
  | case4 p ds hspace ih =>
    obtain ⟨passed, rfl, rfl, closing, cs, rfl, hcloses, hcs⟩ := ih h
    refine ⟨'/' :: '*' :: (closing ++ cs), rfl, rfl, ?_⟩
    cases hcloses with
    | @last body hbody =>
      have hblock := Filler.block hbody hcs
      simpa only [Passes, List.cons_append, List.append_assoc, List.nil_append] using hblock
  | case5 =>
    cases h
    exact ⟨[], rfl, rfl, .nil⟩
  | case6 =>
    cases h
    exact ⟨[], rfl, rfl, .nil⟩
  | case7 p =>
    cases h
    exact ⟨[], rfl, rfl, .inr ⟨rfl, List.not_mem_nil⟩⟩
  | case8 c cs p ih =>
    obtain ⟨passed, rfl, rfl, hpasses⟩ := ih h
    refine ⟨c :: passed, rfl, rfl, ?_⟩
    by_cases hc : c = '\n'
    · subst hc
      exact .inl ⟨[], passed, rfl, List.not_mem_nil, hpasses⟩
    · rw [if_neg hc] at hpasses
      rcases hpasses with ⟨body, cs, rfl, hbody, hcs⟩ | ⟨hend, hpassed⟩
      · exact .inl ⟨c :: body, cs, rfl, List.not_mem_cons_of_ne_of_not_mem (Ne.symm hc) hbody, hcs⟩
      · exact .inr ⟨hend, List.not_mem_cons_of_ne_of_not_mem (Ne.symm hc) hpassed⟩
  | case9 => cases h
  | case10 opened depth c p ih =>
    -- One character does not close a comment, and nothing is left behind it.
    obtain ⟨passed, hnil, -, closing, cs, rfl, hcloses, -⟩ := ih h
    rw [eq_comm, List.append_eq_nil_iff, List.append_eq_nil_iff] at hnil
    exact absurd hnil.1.1 hcloses.ne_nil
  | case11 opened c d cs p hmark ih =>
    obtain ⟨rfl, rfl⟩ := hmark
    obtain ⟨passed, rfl, rfl, hpasses⟩ := ih h
    exact ⟨'*' :: '/' :: passed, rfl, rfl, ['*', '/'], passed, rfl, .last .nil, hpasses⟩
  | case12 opened c d cs p hmark depth ih =>
    obtain ⟨rfl, rfl⟩ := hmark
    obtain ⟨passed, rfl, rfl, closing, cs, rfl, hcloses, hcs⟩ := ih h
    exact ⟨'*' :: '/' :: (closing ++ cs), rfl, rfl, '*' :: '/' :: closing, cs, rfl, hcloses.close,
      hcs⟩
  | case13 opened depth c d cs p hclose hmark ih =>
    obtain ⟨rfl, rfl⟩ := hmark
    obtain ⟨passed, rfl, rfl, closing, cs, rfl, hcloses, hcs⟩ := ih h
    exact ⟨'/' :: '*' :: (closing ++ cs), rfl, rfl, '/' :: '*' :: closing, cs, rfl, hcloses.nested,
      hcs⟩
  | case14 opened depth c d cs p hclose hopen ih =>
    obtain ⟨passed, hpassed, rfl, closing, tail, rfl, hcloses, htail⟩ := ih h
    refine ⟨c :: (closing ++ tail), by rw [hpassed]; rfl, rfl, c :: closing, tail, rfl, ?_, htail⟩
    refine hcloses.char ?_
    -- The two characters that were compared are the first ones of what is passed.
    obtain ⟨e, closing, rfl⟩ := List.exists_cons_of_ne_nil hcloses.ne_nil
    obtain ⟨rfl, -⟩ := List.cons.inj hpassed
    rintro (⟨hc, hd⟩ | ⟨hc, hd⟩)
    · exact hopen ⟨hc, Option.some.inj hd⟩
    · exact hclose ⟨hc, Option.some.inj hd⟩

/-! ### Gaps are passed over -/

/-- Where a reader stands behind the end of a comment that has so many around it. -/
def Gap.closed (opened : Position) : (depth : Nat) → Gap
  | 0 => .open_
  | depth + 1 => .block opened depth

section

variable (opened : Position) (depth : Nat) (cs : List Char) (p : Position)

/-- A blank is passed over. -/
theorem skip_blank {c : Char} (h : isSpace c) :
    skip .open_ (c :: cs) p = skip .open_ cs (p.next c) := by
  rw [skip.eq_def]
  simp only [if_pos h]

/-- Two slashes open a comment up to the end of the line. -/
theorem skip_openLine : skip .open_ ('/' :: '/' :: cs) p = skip .line cs (p.after ['/', '/']) :=
  rfl

/-- A slash and a star open a comment. -/
theorem skip_openBlock :
    skip .open_ ('/' :: '*' :: cs) p = skip (.block p 0) cs (p.after ['/', '*']) :=
  rfl

theorem skip_openNested :
    skip (.block opened depth) ('/' :: '*' :: cs) p =
      skip (.block opened (depth + 1)) cs (p.after ['/', '*']) := by
  cases depth <;> rfl

/-- A star and a slash close the innermost one. -/
theorem skip_close :
    skip (.block opened depth) ('*' :: '/' :: cs) p =
      skip (.closed opened depth) cs (p.after ['*', '/']) := by
  cases depth <;> rfl

/-- Anything else inside a comment is passed over. -/
theorem skip_inBlock {c d : Char} (h : ¬Marks c (d :: cs)) :
    skip (.block opened depth) (c :: d :: cs) p =
      skip (.block opened depth) (d :: cs) (p.next c) := by
  have hclose : ¬(c = '*' ∧ d = '/') := fun hmark ↦ h (.inr ⟨hmark.1, congrArg some hmark.2⟩)
  have hopen : ¬(c = '/' ∧ d = '*') := fun hmark ↦ h (.inl ⟨hmark.1, congrArg some hmark.2⟩)
  rw [skip.eq_def]
  simp only [if_neg hclose, if_neg hopen]

/-- A comment up to the end of its line is passed over, the line feed included. -/
theorem skip_line {body : List Char} (h : '\n' ∉ body) :
    skip .line (body ++ '\n' :: cs) p = skip .open_ cs (p.after (body ++ ['\n'])) := by
  induction body generalizing p with
  | nil => rfl
  | cons c body ih =>
    rw [List.mem_cons, not_or] at h
    rw [List.cons_append, skip, if_neg (Ne.symm h.1), ih _ h.2]
    rfl

/-- A comment is read up to the mark that closes it, and its nested comments with it. -/
theorem skip_commentBody {body : List Char} (h : CommentBody body) :
    skip (.block opened depth) (body ++ '*' :: '/' :: cs) p =
      skip (.closed opened depth) cs (p.after (body ++ ['*', '/'])) := by
  induction h generalizing depth cs p with
  | nil => exact skip_close opened depth cs p
  | @char c body hc _ ih =>
    have hstep : skip (.block opened depth) (c :: (body ++ '*' :: '/' :: cs)) p =
        skip (.block opened depth) (body ++ '*' :: '/' :: cs) (p.next c) := by
      -- The character behind `c` is in the body, or it is the star that closes the comment.
      cases body with
      | nil => exact skip_inBlock _ _ _ _ hc
      | cons d body => exact skip_inBlock _ _ _ _ hc
    rw [List.cons_append, hstep, ih]
    rfl
  | @nested inner body _ _ ihinner ih =>
    have happend : '/' :: '*' :: inner ++ '*' :: '/' :: body ++ '*' :: '/' :: cs =
        '/' :: '*' :: (inner ++ '*' :: '/' :: (body ++ '*' :: '/' :: cs)) := by
      simp only [List.cons_append, List.append_assoc]
    rw [happend, skip_openNested, ihinner, Gap.closed, ih]
    simp only [← Position.after_append, List.cons_append, List.nil_append, List.append_assoc]

end

/-- **What follows the grammar of gaps is passed over**, and a reader goes on behind it. -/
theorem skip_filler {gap : List Char} (h : Filler false gap) (cs : List Char) (p : Position) :
    skip .open_ (gap ++ cs) p = skip .open_ cs (p.after gap) := by
  induction h generalizing p with
  | nil => rfl
  | blank hc _ ih =>
    rw [List.cons_append, skip_blank _ _ ((isSpace_iff _).2 hc), ih]
    rfl
  | @line body rest hbody _ ih =>
    have happend : '/' :: '/' :: body ++ '\n' :: rest ++ cs =
        '/' :: '/' :: (body ++ '\n' :: (rest ++ cs)) := by
      simp only [List.cons_append, List.append_assoc]
    rw [happend, skip_openLine, skip_line _ _ hbody, ih]
    simp only [← Position.after_append, List.cons_append, List.nil_append, List.append_assoc]
  | @block body rest hbody _ ih =>
    have happend : '/' :: '*' :: body ++ '*' :: '/' :: rest ++ cs =
        '/' :: '*' :: (body ++ '*' :: '/' :: (rest ++ cs)) := by
      simp only [List.cons_append, List.append_assoc]
    rw [happend, skip_openBlock, skip_commentBody _ _ _ _ hbody, Gap.closed, ih]
    simp only [← Position.after_append, List.cons_append, List.nil_append, List.append_assoc]
  | lastLine hend _ => cases hend

/-! ### Gaps without an end -/

/-- A fault in a gap spans the text from where a block comment was opened to the end: the comment
that a reader is in, or one in the text ahead. -/
def FaultsIn (gap : Gap) (p : Position) (cs : List Char) (span : Span) : Prop :=
  ∃ opened, span = .between opened (p.after cs) ∧
    ((∃ depth, gap = .block opened depth) ∨
      ∃ before text, cs = before ++ text ∧ opened = p.after before)

/-- What is read before a fault comes to it. -/
theorem FaultsIn.read {gap gap' : Gap} {p : Position} {cs : List Char} {span : Span}
    (read : List Char) (h : FaultsIn gap' (p.after read) cs span)
    (hgap : ∀ opened depth, gap' = .block opened depth →
      opened = p ∨ ∃ depth, gap = .block opened depth) :
    FaultsIn gap p (read ++ cs) span := by
  obtain ⟨opened, hspan, hopened⟩ := h
  rw [← Position.after_append] at hspan
  refine ⟨opened, hspan, ?_⟩
  rcases hopened with ⟨depth, hblock⟩ | ⟨before, text, rfl, rfl⟩
  · rcases hgap opened depth hblock with rfl | hblock
    · exact .inr ⟨[], read ++ cs, rfl, rfl⟩
    · exact .inl hblock
  · exact .inr ⟨read ++ before, text, (List.append_assoc _ _ _).symm,
      (Position.after_append _ _ _).symm⟩

/-- **A gap that cannot be passed over** has a block comment that is open at the end of the text. -/
theorem faultsIn_of_skip {gap : Gap} {cs : List Char} {p : Position} {e : ScanError}
    (h : skip gap cs p = .error e) : FaultsIn gap p cs e.span := by
  -- Only the end of the text inside a comment is a fault; all other branches read on.
  fun_induction skip gap cs p with
  | case1 | case5 | case6 | case7 => cases h
  | case2 c cs p hspace ih => exact (ih h).read [c] fun _ _ hgap ↦ by cases hgap
  | case3 p ds hspace ih => exact (ih h).read ['/', '/'] fun _ _ hgap ↦ by cases hgap
  | case4 p ds hspace ih =>
    refine (ih h).read ['/', '*'] fun opened depth hgap ↦ .inl ?_
    cases hgap
    rfl
  | case8 c cs p ih =>
    refine (ih h).read [c] fun opened depth hgap ↦ ?_
    split at hgap <;> cases hgap
  | case9 opened depth p =>
    cases h
    exact ⟨opened, rfl, .inl ⟨depth, rfl⟩⟩
  | case10 opened depth c p ih => exact (ih h).read [c] fun _ _ hgap ↦ .inr ⟨_, hgap⟩
  | case11 opened c d cs p hmark ih => exact (ih h).read [c, d] fun _ _ hgap ↦ by cases hgap
  | case12 opened c d cs p hmark depth ih =>
    refine (ih h).read [c, d] fun _ _ hgap ↦ .inr ⟨depth + 1, ?_⟩
    cases hgap
    rfl
  | case13 opened depth c d cs p hclose hmark ih =>
    refine (ih h).read [c, d] fun _ _ hgap ↦ .inr ⟨depth, ?_⟩
    cases hgap
    rfl
  | case14 opened depth c d cs p hclose hopen ih =>
    exact (ih h).read [c] fun _ _ hgap ↦ .inr ⟨_, hgap⟩

end Scan

end Scriptlet
