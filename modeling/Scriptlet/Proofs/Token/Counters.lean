import Scriptlet.Proofs.Token.Strings

/-!
# Counting along the way

Positions are computed from the characters that were passed over, so that a line feed ends a line
wherever it stands. A reader may also keep the three counters itself: it adds one to the column for
**every** character, and where it meets a line feed it starts a new line besides. Such a reader has
to know where a line feed can be met.

There are two such places, between tokens and inside a block comment. A line comment stops in front
of its line feed, which is a blank then, and no token holds one (`Scan.not_mem_of_lexeme`). Hence
counting along the way gives the same tokens with the same spans, and the same faults
(`Tokens.ofText_eq_tokensCounting`).
-/

namespace Scriptlet

namespace Position

/-- The place behind a character that does not end a line. -/
def advance (p : Position) (c : Char) : Position :=
  ⟨p.offset + c.utf8Size, p.line, p.column + 1⟩

/-- The place behind characters of which none ends a line. -/
def advanceAll (p : Position) (cs : List Char) : Position :=
  cs.foldl advance p

/-- The same place at the start of a new line. -/
def newLine (p : Position) : Position :=
  ⟨p.offset, p.line + 1, 1⟩

/-- A character that ends no line is one more column. -/
theorem next_of_ne {c : Char} (p : Position) (hc : c ≠ '\n') : p.next c = p.advance c :=
  if_neg hc

/-- A line feed is one more column first, and then the start of a new line. -/
theorem next_lineFeed (p : Position) : p.next '\n' = (p.advance '\n').newLine :=
  rfl

/-- Without a line feed among them, characters are counted alike. -/
theorem after_of_not_mem {cs : List Char} (p : Position) (h : '\n' ∉ cs) :
    p.after cs = p.advanceAll cs := by
  induction cs generalizing p with
  | nil => rfl
  | cons c cs ih =>
    rw [List.mem_cons, not_or] at h
    rw [after_cons, next_of_ne p (Ne.symm h.1), ih _ h.2]
    rfl

end Position

namespace Scan

/-! ### Gaps -/

/-- Passes over a gap and counts along the way. -/
def skipCounting : Gap → List Char → Position → Except ScanError (List Char × Position)
  | .open_, [], p => .ok ([], p)
  | .open_, c :: cs, p =>
    if c = ' ' ∨ c = '\t' ∨ c = '\r' then skipCounting .open_ cs (p.advance c)
    else if c = '\n' then skipCounting .open_ cs (p.advance c).newLine
    else if c = '/' then
      match cs with
      | '/' :: ds => skipCounting .line ds (p.advanceAll ['/', '/'])
      | '*' :: ds => skipCounting (.block p 0) ds (p.advanceAll ['/', '*'])
      | _ => .ok (c :: cs, p)
    else .ok (c :: cs, p)
  | .line, [], p => .ok ([], p)
  | .line, c :: cs, p =>
    -- The line feed is left to the gap behind the comment.
    if c = '\n' then skipCounting .open_ (c :: cs) p else skipCounting .line cs (p.advance c)
  | .block opened _, [], p => .error ⟨.unterminatedComment, .between opened p⟩
  | .block opened depth, [c], p =>
    if c = '\n' then skipCounting (.block opened depth) [] (p.advance c).newLine
    else skipCounting (.block opened depth) [] (p.advance c)
  | .block opened depth, c :: d :: cs, p =>
    if c = '*' ∧ d = '/' then
      match depth with
      | 0 => skipCounting .open_ cs (p.advanceAll [c, d])
      | depth + 1 => skipCounting (.block opened depth) cs (p.advanceAll [c, d])
    else if c = '/' ∧ d = '*' then
      skipCounting (.block opened (depth + 1)) cs (p.advanceAll [c, d])
    else if c = '\n' then skipCounting (.block opened depth) (d :: cs) (p.advance c).newLine
    else skipCounting (.block opened depth) (d :: cs) (p.advance c)
termination_by gap cs => (cs.length, match gap with | .line => 1 | _ => 0)

/-- Two characters that are neither `*/` nor `/*` are no mark of a comment. -/
theorem not_marks {c d : Char} {cs : List Char} (hclose : ¬(c = '*' ∧ d = '/'))
    (hopen : ¬(c = '/' ∧ d = '*')) : ¬Marks c (d :: cs) := by
  rintro (⟨hc, hd⟩ | ⟨hc, hd⟩)
  · exact hopen ⟨hc, Option.some.inj hd⟩
  · exact hclose ⟨hc, Option.some.inj hd⟩

/-- The two ways to pass over a gap agree: every line feed in it is met by a branch that starts a
line. -/
theorem skipCounting_eq_skip (gap : Gap) (cs : List Char) (p : Position) :
    skipCounting gap cs p = skip gap cs p := by
  -- One case for each branch of the counting reader. A line ends in three of them: between tokens,
  -- in a comment, and in one that the text ends with.
  fun_induction skipCounting gap cs p with
  | case1 | case8 | case11 => rw [skip]
  | case2 c cs p hc ih =>
    have hspace : isSpace c := by
      obtain rfl | rfl | rfl := hc <;> decide
    have hline : c ≠ '\n' := by
      obtain rfl | rfl | rfl := hc <;> decide
    rw [ih, skip_blank _ _ hspace, Position.next_of_ne p hline]
  | case3 cs p _ ih => rw [ih, skip_blank _ _ (by decide), Position.next_lineFeed]
  | case4 p ds _ _ ih => rw [ih, skip_openLine, Position.after_of_not_mem p (by decide)]
  | case5 p ds _ _ ih => rw [ih, skip_openBlock, Position.after_of_not_mem p (by decide)]
  | case6 cs p hline hblock =>
    rw [skip.eq_def]
    dsimp only
    rw [if_neg (by decide), if_pos rfl]
    split
    · exact (hline _ rfl).elim
    · exact (hblock _ rfl).elim
    · rfl
  | case7 c cs p hblank hline hslash =>
    have hspace : ¬isSpace c := by
      rw [isSpace_iff]
      simp_all
    rw [skip.eq_def]
    simp only [if_neg hspace, if_neg hslash]
  | case9 cs p ih => rw [ih, skip_blank _ _ (by decide), skip, if_pos rfl]
  | case10 c cs p hc ih => rw [ih, skip, if_neg hc, Position.next_of_ne p hc]
  | case12 opened depth p ih => exact ih
  | case13 opened depth c p hc ih => rwa [← Position.next_of_ne p hc] at ih ⊢
  | case14 opened c d cs p hclose ih | case15 opened c d cs p hclose depth ih =>
    obtain ⟨rfl, rfl⟩ := hclose
    rw [ih, skip_close, Position.after_of_not_mem p (by decide), Gap.closed]
  | case16 opened depth c d cs p _ hopen ih =>
    obtain ⟨rfl, rfl⟩ := hopen
    rw [ih, skip_openNested, Position.after_of_not_mem p (by decide)]
  | case17 opened depth d cs p hclose hopen ih =>
    rw [ih, skip_inBlock _ _ _ _ (not_marks hclose hopen), Position.next_lineFeed]
  | case18 opened depth c d cs p hclose hopen hc ih =>
    rw [ih, skip_inBlock _ _ _ _ (not_marks hclose hopen), Position.next_of_ne p hc]

/-! ### Tokens hold no line feed -/

/-- Symbols hold no line feed. -/
theorem not_mem_of_symbol? {c : Char} {cs : List Char} {l : Lexeme} (h : symbol? c cs = some l) :
    '\n' ∉ l.text := by
  have hlone {s : Symbol} (hs : lone? c = some s) : '\n' ∉ [c] := by
    rintro hmem
    cases List.mem_singleton.1 hmem
    cases hs
  have hpaired {d : Char} {s : Symbol} (hs : paired? c d = some s) : '\n' ∉ [c, d] := by
    unfold paired? at hs
    split at hs
    case h_7 => cases hs
    all_goals decide
  unfold symbol? at h
  split at h
  · obtain ⟨s, hs, rfl⟩ := Option.map_eq_some_iff.1 h
    exact hlone hs
  · split at h
    · rename_i hs
      cases h
      exact hpaired hs
    · obtain ⟨s, hs, rfl⟩ := Option.map_eq_some_iff.1 h
      exact hlone hs

/-- Characters that pass a test hold no line feed if a line feed fails it. -/
theorem not_mem_cons_takeWhile {f : Char → Bool} {c : Char} (hc : c ≠ '\n') (h : f '\n' = false)
    (cs : List Char) : '\n' ∉ c :: cs.takeWhile f :=
  List.not_mem_cons_of_ne_of_not_mem (Ne.symm hc) fun hmem ↦
    Bool.false_ne_true (h.symm.trans (List.mem_takeWhile_imp hmem))

theorem not_mem_of_number {c : Char} {cs : List Char} {l : Lexeme} (hc : c ≠ '\n')
    (h : number c cs = .ok l) : '\n' ∉ l.text := by
  -- Digits are no line feeds, before the point and behind it.
  have hwhole := not_mem_cons_takeWhile (f := Char.isDigit) hc rfl cs
  unfold number at h
  split at h
  · rename_i places rest hplaces
    cases h
    unfold places? at hplaces
    split at hplaces
    · rename_i d ds _
      split at hplaces
      · rename_i hd
        cases hplaces
        have hd : d ≠ '\n' := by
          rintro rfl
          exact absurd hd (by decide)
        refine List.not_mem_append hwhole ?_
        exact List.not_mem_cons_of_ne_of_not_mem (by decide) (not_mem_cons_takeWhile hd rfl ds)
      · cases hplaces
    · cases hplaces
  · dsimp only at h
    split at h <;> cases h
    exact hwhole

/-- **No token holds a line feed.** -/
theorem not_mem_of_lexeme {c : Char} {cs : List Char} {l : Lexeme} (hc : c ≠ '\n')
    (h : lexeme c cs = .ok l) : '\n' ∉ l.text := by
  obtain hsymbol | ⟨-, r, hr, rfl⟩ | ⟨-, hnumber⟩ | ⟨-, -, -, rfl⟩ := lexeme_cases h
  · exact not_mem_of_symbol? hsymbol
  · obtain ⟨inside, htext, hinside⟩ := exists_literal_of_stringRest hr
    have hquote : '\n' ∉ [c] := mt List.mem_singleton.1 (Ne.symm hc)
    dsimp only
    rw [htext]
    exact List.not_mem_cons_of_ne_of_not_mem (Ne.symm hc)
      (List.not_mem_append hinside.not_mem hquote)
  · exact not_mem_of_number hc hnumber
  · exact not_mem_cons_takeWhile hc (by decide) cs

/-- A string that is left open is read up to the end of its line, and an escape that is none up to
its backslash. -/
theorem not_mem_of_stringRest_eq_error {quote : Char} {cs : List Char} {f : Refusal}
    (h : stringRest quote cs = .error f) : '\n' ∉ f.text := by
  fun_induction stringRest quote cs generalizing f with
  | case1 | case2 =>
    cases h
    exact List.not_mem_nil
  | case3 | case6 | case8 => cases h
  | case4 | case5 =>
    cases h
    exact mt List.mem_singleton.1 (by decide)
  | case7 letter cs v hv f hf hn hq ih =>
    cases h
    have hletter : '\n' ≠ letter := by
      rintro rfl
      cases hv
    exact List.not_mem_cons_of_ne_of_not_mem (by decide)
      (List.not_mem_cons_of_ne_of_not_mem hletter (ih hf))
  | case9 c cs hn hq hc f hf ih =>
    cases h
    exact List.not_mem_cons_of_ne_of_not_mem (Ne.symm hn) (ih hf)

/-- No fault is seen behind a line feed. -/
theorem not_mem_of_lexeme_eq_error {c : Char} {cs : List Char} {f : Refusal} (hc : c ≠ '\n')
    (h : lexeme c cs = .error f) : '\n' ∉ f.text := by
  unfold lexeme at h
  split at h
  · cases h
  split at h
  · split at h
    · cases h
    · rename_i hf
      cases h
      exact List.not_mem_cons_of_ne_of_not_mem (Ne.symm hc) (not_mem_of_stringRest_eq_error hf)
  split at h
  · unfold number at h
    split at h
    · cases h
    · dsimp only at h
      split at h <;> cases h
      exact not_mem_cons_takeWhile hc rfl cs
  split at h
  · cases h
  · cases h
    exact mt List.mem_singleton.1 (Ne.symm hc)

/-! ### All tokens -/

theorem length_skipCounting_le {gap : Gap} {cs rest : List Char} {p q : Position}
    (h : skipCounting gap cs p = .ok (rest, q)) : rest.length ≤ cs.length :=
  length_skip_le ((skipCounting_eq_skip gap cs p).symm.trans h)

/-- The tokens of the characters from a position on, with their places counted along the way. -/
def tokensCounting (cs : List Char) (p : Position) : Except ScanError Tokens :=
  match hs : skipCounting .open_ cs p with
  | .error e => .error e
  | .ok ([], q) => .ok ⟨[], .between q q⟩
  | .ok (c :: rest, q) =>
    match hl : lexeme c rest with
    | .error f => .error ⟨f.cause, .between q (q.advanceAll f.text)⟩
    | .ok l =>
      have : l.rest.length < cs.length := by
        have := length_skipCounting_le hs
        have := length_lexeme_lt hl
        omega
      let stop := q.advanceAll l.text
      match tokensCounting l.rest stop with
      | .error e => .error e
      | .ok ts => .ok { ts with ahead := ⟨l.kind, .between q stop⟩ :: ts.ahead }
termination_by cs.length

/-- Tokens and places are the same, whichever way the place is counted. -/
theorem tokensFrom_eq_tokensCounting (cs : List Char) (p : Position) :
    tokensFrom cs p = tokensCounting cs p := by
  -- Both readers take the same lexeme behind the same gap, and it holds no line feed.
  have hstart {cs rest : List Char} {c : Char} {p q : Position}
      (hs : skip .open_ cs p = .ok (c :: rest, q)) : c ≠ '\n' := by
    rintro rfl
    exact Bool.noConfusion (clear_of_skip hs).1
  fun_induction tokensCounting cs p with
  | case1 cs p e hs =>
    rw [skipCounting_eq_skip] at hs
    rw [tokensFrom_eq_bind, hs]
    rfl
  | case2 cs p q hs =>
    rw [skipCounting_eq_skip] at hs
    rw [tokensFrom_eq_bind, hs]
    rfl
  | case3 cs p c rest q hs f hf =>
    rw [skipCounting_eq_skip] at hs
    have htext := not_mem_of_lexeme_eq_error (hstart hs) hf
    rw [tokensFrom_eq_bind, hs, ← q.after_of_not_mem htext]
    exact tokensAt_of_refusal hf q
  | case4 cs p c rest q hs l hl _ stop e he ih =>
    rw [skipCounting_eq_skip] at hs
    have htext : q.after l.text = stop := q.after_of_not_mem (not_mem_of_lexeme (hstart hs) hl)
    rw [tokensFrom_eq_bind, hs, Except.bind, tokensAt_of_lexeme hl, htext, ih, he]
    rfl
  | case5 cs p c rest q hs l hl _ stop ts hts ih =>
    rw [skipCounting_eq_skip] at hs
    have htext : q.after l.text = stop := q.after_of_not_mem (not_mem_of_lexeme (hstart hs) hl)
    rw [tokensFrom_eq_bind, hs, Except.bind, tokensAt_of_lexeme hl, htext, ih, hts]
    rfl

end Scan

/-- **Counting along the way agrees with counting what was read**: the same tokens at the same
places, or the same fault. -/
theorem Tokens.ofText_eq_tokensCounting (source : String) :
    ofText source = Scan.tokensCounting source.toList .start :=
  Scan.tokensFrom_eq_tokensCounting source.toList .start

end Scriptlet
